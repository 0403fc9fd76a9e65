-- A phrase in every language: the routed fan-out (adapters/mt_routing.py) over the
-- two backends as they are (mt_opus.py, mt_nllb.py). The backends run
-- concurrently, one batches and one has a task for each language; a language
-- is given what its own model makes of the phrase.
import LadTranslate.Nllb
import LadTranslate.Opus
import LadTranslate.Routing

open fallible machines ordered_dicts

namespace lad_translate.mt_routing

open OrderedDict mt_nllb mt_opus

open phrase_chunker (reprText)

/-! ## The two backends -/

/-- Python's text of a list of codes. -/
def reprList (codes : List String) : String :=
  "[" ++ ", ".intercalate (codes.map reprText) ++ "]"

/-- Python's text of a dictionary of codes. -/
def reprDict (d : OrderedDict String String) : String :=
  "\x7b" ++ ", ".intercalate (d.entries.map fun p => reprText p.1 ++ ": " ++ reprText p.2) ++ "\x7d"

def opusError (model_root : String) : mt_opus.LoadError → String
  | .no_workers => "max_workers must be greater than 0"
  | .no_model missing wanted fetch =>
    "no model for " ++ reprList missing ++ " (looked for " ++ reprDict wanted ++ " under " ++
      model_root ++ "). Fetch with: python tools/fetch_mt_models.py --pair " ++
      " --pair ".intercalate fetch
  | .unreadable _ reason => reason

def nllbError (model_path : String) : mt_nllb.LoadError → String
  | .no_model => "no NLLB model at " ++ model_path ++
      ". Fetch it with: python tools/fetch_mt_models.py --nllb"
  | .unknown languages => "no FLORES-200 code for " ++ reprList languages ++
      "; add it to FLORES in mt_nllb.py"
  | .unreadable reason => reason

/-- What the backends load from, and their options. -/
structure Options where
  root : ModelRoot
  model_root : String
  opus_beam_size : Nat
  opus_max_output_ratio : ℚ
  path : ModelPath
  model_path : String
  nllb_beam_size : Nat
  nllb_max_output_ratio : ℚ

namespace Options

def opus (options : Options) (source : String) (languages : List String) : Except String OpusMtAdapter :=
  (OpusMtAdapter.new options.root source languages options.opus_beam_size
    options.opus_max_output_ratio).mapError (opusError options.model_root)

def nllb (options : Options) (source : String) (languages : List String) : Except String NllbMtAdapter :=
  (NllbMtAdapter.new options.path source languages options.nllb_beam_size
    options.nllb_max_output_ratio).mapError (nllbError options.model_path)

def build (options : Options) (name source : String) (languages : List String) :
    Except String Backend :=
  if name = OPUS then (options.opus source languages).map fun a => ⟨a.supports⟩
  else (options.nllb source languages).map fun a => ⟨a.supports⟩

end Options

/-! ## What the constructor builds -/

/-- The languages that a backend is built for. -/
def languagesOf (served : List String) (routes : Option (OrderedDict String String))
    (name : String) : List String :=
  share ((ofKeys (routeFor · (some (routes.getD DEFAULT_ROUTES))) served).entries.map fun p => (p.2, p.1)) name

theorem mem_languagesOf {served : List String} {routes : Option (OrderedDict String String)}
    {name language : String} :
    language ∈ languagesOf served routes name ↔ language ∈ served ∧ routeFor language routes = name := by
  unfold languagesOf share
  rw [entries_ofKeys, List.map_map, List.filter_map, List.map_map, List.mem_map]
  simp only [List.mem_filter, Function.comp_apply, decide_eq_true_eq, mem_keys_ofKeys]
  constructor
  · rintro ⟨t, ht, rfl⟩
    exact ht
  · intro h
    exact ⟨language, h, rfl⟩

variable {build : String → String → List String → Except String Backend} {source_language : String}
  {served : List String} {routes : Option (OrderedDict String String)} {r : RoutingMtAdapter}

/-- A backend is there when it has languages, built for just these. -/
theorem backends_new (hnew : RoutingMtAdapter.new build source_language served routes = .ok r)
    (name : String) (backend : Backend) : r.backends.get? name = some backend ↔
      (name = OPUS ∨ name = NLLB) ∧ languagesOf served routes name ≠ [] ∧
        build name source_language (languagesOf served routes name) = .ok backend := by
  obtain ⟨backends, hfold, hr⟩ := bind_eq_ok.mp hnew
  cases hr
  have hgroup := get?_group ((ofKeys (routeFor · (some (routes.getD DEFAULT_ROUTES))) served).entries.map
    fun p => (p.2, p.1))
  generalize group ((ofKeys (routeFor · (some (routes.getD DEFAULT_ROUTES))) served).entries.map
    fun p => (p.2, p.1)) = grouped at hgroup hfold
  have hbuilt := foldlM_induction (P := fun done backends => (done.map Prod.fst).Nodup →
    ∀ name backend, OrderedDict.get? backends name = some backend ↔ (name = OPUS ∨ name = NLLB) ∧
      ∃ languages, (name, languages) ∈ done ∧ build name source_language languages = .ok backend)
    ?_ ?_ hfold grouped.nodup name backend
  · rw [hbuilt]
    have hentry : ∀ languages, (name, languages) ∈ grouped.entries ↔
        languagesOf served routes name ≠ [] ∧ languages = languagesOf served routes name := by
      intro languages
      rw [← get?_eq_some, hgroup, languagesOf]
      split
      · rename_i hnil
        simp [hnil]
      · rename_i hsome
        simp [hsome, eq_comm]
    simp only [hentry]
    constructor
    · rintro ⟨hname, languages, ⟨hsome, rfl⟩, hbuild⟩
      exact ⟨hname, hsome, hbuild⟩
    · rintro ⟨hname, hsome, hbuild⟩
      exact ⟨hname, _, ⟨hsome, rfl⟩, hbuild⟩
  · intro done backends p backends' ih hturn hnodup name backend
    rw [List.map_append, List.map_singleton, List.nodup_append'] at hnodup
    obtain ⟨hdone, -, hdisjoint⟩ := hnodup
    split at hturn
    · rename_i hknown
      obtain ⟨built, hbuild, hturn⟩ := bind_eq_ok.mp hturn
      cases hturn
      rw [get?_set]
      by_cases hname : name = p.1
      · -- the group of this turn is the only one of its name
        subst hname
        have hfresh : ∀ languages, (p.1, languages) ∉ done := by
          intro languages hmem
          exact hdisjoint (List.mem_map.mpr ⟨_, hmem, rfl⟩) (List.mem_singleton_self _)
        have honly : ∀ languages, (p.1, languages) ∈ done ++ [p] ↔ languages = p.2 := by
          intro languages
          simp [hfresh, Prod.ext_iff]
        simp only [honly, exists_eq_left, if_true, hbuild, hknown, true_and]
        simp [eq_comm]
      · have hother : ∀ languages, (name, languages) ∈ done ++ [p] ↔ (name, languages) ∈ done := by
          intro languages
          simp [Prod.ext_iff, hname]
        rw [if_neg hname, ih hdone]
        simp only [hother]
    · cases hturn
  · intro _ name backend
    simp

/-- Each language has a backend that was built. -/
theorem built_new (hnew : RoutingMtAdapter.new build source_language served routes = .ok r)
    {language : String} (hserved : language ∈ served) : ∃ backend,
      r.backends.get? (routeFor language routes) = some backend := by
  obtain ⟨backends, hfold, -⟩ := bind_eq_ok.mp hnew
  have hmem : language ∈ languagesOf served routes (routeFor language routes) :=
    mem_languagesOf.mpr ⟨hserved, rfl⟩
  have hsome := List.ne_nil_of_mem hmem
  have hall := foldlM_induction (P := fun done _ => ∀ p ∈ done, (p.1 = OPUS ∨ p.1 = NLLB) ∧
      ∃ backend, build p.1 source_language p.2 = .ok backend) ?_ (by simp) hfold
    (routeFor language routes, languagesOf served routes (routeFor language routes)) ?_
  · obtain ⟨hknown, backend, hbuild⟩ := hall
    exact ⟨backend, (backends_new hnew _ _).mpr ⟨hknown, hsome, hbuild⟩⟩
  · intro done backends p backends' ih hturn q hq
    rcases List.mem_append.mp hq with hq | hq
    · exact ih q hq
    · rw [List.mem_singleton.mp hq]
      split at hturn
      · rename_i hknown
        obtain ⟨built, hbuild, -⟩ := bind_eq_ok.mp hturn
        exact ⟨hknown, built, hbuild⟩
      · cases hturn
  · apply get?_eq_some.mp
    rw [get?_group]
    exact if_neg hsome

/-! ## The two backends, built -/

variable {options : Options}

/-- What the backends of a session are, when it has languages for them. -/
theorem built_cases
    (hnew : RoutingMtAdapter.new options.build source_language served routes = .ok r)
    {language : String} (hserved : language ∈ served) :
    (routeFor language routes = OPUS ∧
      ∃ a, options.opus source_language (languagesOf served routes OPUS) = .ok a ∧
        r.backends.get? OPUS = some ⟨a.supports⟩) ∨
    (routeFor language routes = NLLB ∧
      ∃ a, options.nllb source_language (languagesOf served routes NLLB) = .ok a ∧
        r.backends.get? NLLB = some ⟨a.supports⟩) := by
  obtain ⟨backend, hbackend⟩ := built_new hnew hserved
  obtain ⟨hknown, -, hbuild⟩ := (backends_new hnew _ _).mp hbackend
  unfold Options.build at hbuild
  rcases hknown with hname | hname
  · left
    rw [hname] at hbuild hbackend
    rw [if_pos rfl] at hbuild
    obtain ⟨a, ha, rfl⟩ := map_eq_ok.mp hbuild
    exact ⟨hname, a, ha, hbackend⟩
  · right
    rw [hname] at hbuild hbackend
    rw [if_neg (by decide)] at hbuild
    obtain ⟨a, ha, rfl⟩ := map_eq_ok.mp hbuild
    exact ⟨hname, a, ha, hbackend⟩

/-- A session serves its languages, and no other. -/
theorem supports_served
    (hnew : RoutingMtAdapter.new options.build source_language served routes = .ok r)
    (source language : String) :
    r.supports source language = true ↔ source = source_language ∧ language ∈ served := by
  have hsource : r.source_language = source_language := by
    obtain ⟨backends, -, hr⟩ := bind_eq_ok.mp hnew
    cases hr
    rfl
  unfold RoutingMtAdapter.supports
  rw [hsource, assignment_new hnew]
  by_cases hserved : language ∈ served
  · rw [if_pos hserved]
    rcases built_cases hnew hserved with ⟨hname, a, ha, hbackend⟩ | ⟨hname, a, ha, hbackend⟩
    · have hsupports := mt_opus.supports_new (mapError_eq_ok.mp ha) source language
      rw [mem_languagesOf, hname] at hsupports
      simp [hname, hbackend, hsupports, hserved]
    · have hsupports := mt_nllb.supports_new (mapError_eq_ok.mp ha) source language
      rw [mem_languagesOf, hname] at hsupports
      simp [hname, hbackend, hsupports, hserved]
  · simp [hserved]

/-- What a language asks of the model directory of its backend. -/
def Options.Ready (options : Options) (source_language : String)
    (routes : Option (OrderedDict String String)) (language : String) : Prop :=
  (routeFor language routes = OPUS ∧
    options.root.has_bin (resolve options.root source_language language).1 = true ∧
    ∃ files, options.root.opened (resolve options.root source_language language).1 = .ok files) ∨
  (routeFor language routes = NLLB ∧ options.path.has_bin = true ∧
    source_language ∈ FLORES.keys ∧ language ∈ FLORES.keys ∧ ∃ files, options.path.opened = .ok files)

/-- A backend can be built when each of its languages is ready. -/
theorem build_iff {name : String} {languages : List String} (hname : name = OPUS ∨ name = NLLB)
    (hsome : languages ≠ []) (hroute : ∀ language ∈ languages, routeFor language routes = name) :
    (∃ backend, options.build name source_language languages = .ok backend) ↔
      ∀ language ∈ languages, options.Ready source_language routes language := by
  have hmapped : ∀ {α : Type} (x : Except String α) (f : α → Backend),
      (∃ backend, x.map f = .ok backend) ↔ ∃ a, x = .ok a := by
    intro α x f
    constructor
    · rintro ⟨backend, h⟩
      obtain ⟨a, ha, -⟩ := map_eq_ok.mp h
      exact ⟨a, ha⟩
    · rintro ⟨a, rfl⟩
      exact ⟨_, rfl⟩
  have hother : OPUS ≠ NLLB := by decide
  unfold Options.build Options.Ready
  rcases hname with rfl | rfl
  · rw [if_pos rfl, hmapped]
    simp only [Options.opus, mapError_eq_ok, mt_opus.new_iff, hsome, ne_eq, not_false_eq_true,
      true_and, load_iff]
    refine forall₂_congr fun language hlanguage => ?_
    simp [hroute language hlanguage, hother]
  · rw [if_neg hother.symm, hmapped]
    simp only [Options.nllb, mapError_eq_ok, mt_nllb.new_iff]
    constructor
    · rintro ⟨hbin, hknown, hfiles⟩ language hlanguage
      exact .inr ⟨hroute language hlanguage, hbin, hknown _ List.mem_cons_self,
        hknown _ (List.mem_cons_of_mem _ hlanguage), hfiles⟩
    · intro hready
      have hnllb : ∀ language ∈ languages, options.path.has_bin = true ∧ source_language ∈ FLORES.keys ∧
          language ∈ FLORES.keys ∧ ∃ files, options.path.opened = .ok files := by
        intro language hlanguage
        rcases hready language hlanguage with h | h
        · exact absurd ((hroute language hlanguage).symm.trans h.1) hother.symm
        · exact h.2
      obtain ⟨first, hfirst⟩ := List.exists_mem_of_ne_nil _ hsome
      obtain ⟨hbin, hsource, -, hfiles⟩ := hnllb first hfirst
      refine ⟨hbin, ?_, hfiles⟩
      intro t ht
      rcases List.mem_cons.mp ht with rfl | ht
      · exact hsource
      · exact (hnllb t ht).2.2.1

/-- A session starts exactly when each of its languages is ready: its backend is
one of the two, and the model that serves it is there and opens. So a language
that cannot be served is found before the first phrase. -/
theorem a_session_starts_iff_its_languages_are_ready (options : Options) (source_language : String)
    (served : List String) (routes : Option (OrderedDict String String)) :
    (∃ r, RoutingMtAdapter.new options.build source_language served routes = .ok r) ↔
      ∀ language ∈ served, options.Ready source_language routes language := by
  have hroute : ∀ name, ∀ language ∈ languagesOf served routes name, routeFor language routes = name :=
    fun name language hlanguage => (mem_languagesOf.mp hlanguage).2
  constructor
  · rintro ⟨r, hnew⟩ language hserved
    obtain ⟨backend, hbackend⟩ := built_new hnew hserved
    obtain ⟨hname, hsome, hbuild⟩ := (backends_new hnew _ _).mp hbackend
    exact (build_iff hname hsome (hroute _)).mp ⟨backend, hbuild⟩ language
      (mem_languagesOf.mpr ⟨hserved, rfl⟩)
  · intro hready
    have hgroup := get?_group ((ofKeys (routeFor · (some (routes.getD DEFAULT_ROUTES))) served).entries.map
      fun p => (p.2, p.1))
    have hbuilt : ∀ p ∈ (group ((ofKeys (routeFor · (some (routes.getD DEFAULT_ROUTES))) served).entries.map
        fun p => (p.2, p.1))).entries, (p.1 = OPUS ∨ p.1 = NLLB) ∧
        ∃ backend, options.build p.1 source_language p.2 = .ok backend := by
      intro p hp
      have hget := get?_eq_some.mpr hp
      rw [hgroup] at hget
      split at hget
      · cases hget
      rename_i hsome
      have hlanguages : languagesOf served routes p.1 = p.2 := Option.some.inj hget
      obtain ⟨first, hfirst⟩ := List.exists_mem_of_ne_nil _ hsome
      obtain ⟨hserved, hname⟩ := mem_languagesOf.mp hfirst
      have hknown : p.1 = OPUS ∨ p.1 = NLLB := by
        rw [← hname]
        exact (hready first hserved).imp And.left And.left
      refine ⟨hknown, (build_iff hknown (hlanguages ▸ hsome) (hlanguages ▸ hroute p.1)).mpr ?_⟩
      intro language hlanguage
      exact hready language (mem_languagesOf.mp (hlanguages ▸ hlanguage)).1
    unfold RoutingMtAdapter.new
    have hfold := foldlM_ok (f := fun (backends : OrderedDict String Backend)
        (p : String × List String) => do
      if p.1 = OPUS ∨ p.1 = NLLB then
        return backends.set p.1 (← options.build p.1 source_language p.2)
      else throw ("unknown translation backend " ++ reprText p.1))
      (fun p hp backends => by
        obtain ⟨hknown, backend, hbuild⟩ := hbuilt p hp
        rw [if_pos hknown, hbuild]
        exact ⟨_, rfl⟩) empty
    obtain ⟨backends, hbackends⟩ := hfold
    exact ⟨_, bind_eq_ok.mpr ⟨backends, hbackends, rfl⟩⟩

/-! ## What the backends answer -/

section

variable [Casing] (options : Options) (source_language : String) (served : List String)
  (routes : Option (OrderedDict String String)) (text : String)

/-- What the `translate_many` of a backend returns. -/
def Options.answer (name : String) (languages : List String) : Option Answer :=
  if name = OPUS then
    (options.opus source_language (languagesOf served routes OPUS)).toOption.map
      (·.translateMany text source_language languages)
  else
    (options.nllb source_language (languagesOf served routes NLLB)).toOption.map
      (·.translateMany text source_language languages)

/-- What the model of a language makes of a phrase. A batch of NLLB fails as a whole. -/
def Options.ownText (alone : List String → List String → Nat → Nat → Option (List String))
    (batch : List String) (language : String) : String :=
  if routeFor language routes = OPUS then
    match options.opus source_language (languagesOf served routes OPUS) with
    | .ok a => (a.translateSync text language).getD ""
    | .error _ => ""
  else
    match options.nllb source_language (languagesOf served routes NLLB) with
    | .ok a =>
      if a.Lost alone text source_language batch then ""
      else a.translate text source_language language
    | .error _ => ""

end

section

variable [Casing] {alone : List String → List String → Nat → Nat → Option (List String)}
  {text : String} {targets : List String}

/-- A backend answers for its share of a call with the texts of its languages. -/
theorem get?_answer (hbatch : ∀ files, options.path.opened = .ok files → Itemwise files alone)
    (hnew : RoutingMtAdapter.new options.build source_language served routes = .ok r)
    {name : String} {answer : Answer}
    (hanswer : options.answer source_language served routes text name
      (r.shareOf source_language targets name) = some answer) (language : String) :
    answer.get? language =
      if language ∈ r.shareOf source_language targets name then
        some (options.ownText source_language served routes text alone
          (r.shareOf source_language targets name) language)
      else none := by
  have hshare : ∀ t, t ∈ r.shareOf source_language targets name →
      routeFor t routes = name ∧ t ∈ languagesOf served routes name := by
    intro t ht
    obtain ⟨⟨-, hsupports⟩, hassigned⟩ := mem_shareOf.mp ht
    have hserved := ((supports_served hnew _ _).mp hsupports).2
    rw [assignment_new hnew, if_pos hserved, Option.some.injEq] at hassigned
    exact ⟨hassigned, mem_languagesOf.mpr ⟨hserved, hassigned⟩⟩
  unfold Options.answer at hanswer
  unfold Options.ownText
  split at hanswer
  · rename_i hname
    obtain ⟨a, ha, rfl⟩ := Option.map_eq_some_iff.mp hanswer
    rw [toOption_eq_some] at ha
    rw [OpusMtAdapter.get?_translateMany, ha]
    by_cases hlanguage : language ∈ r.shareOf source_language targets name
    · obtain ⟨hroute, hbuilt⟩ := hshare language hlanguage
      have hsupports := (mt_opus.supports_new (mapError_eq_ok.mp ha) source_language language).mpr
        ⟨rfl, hname ▸ hbuilt⟩
      rw [if_pos ⟨hlanguage, hsupports⟩, if_pos hlanguage, if_pos (hroute.trans hname)]
    · rw [if_neg (fun h => hlanguage h.1), if_neg hlanguage]
  · rename_i hname
    obtain ⟨a, ha, rfl⟩ := Option.map_eq_some_iff.mp hanswer
    rw [toOption_eq_some] at ha
    have hfiles := (mt_nllb.new_ok (mapError_eq_ok.mp ha)).1
    rw [mt_nllb.get?_translateMany (hbatch _ hfiles), ha]
    by_cases hlanguage : language ∈ r.shareOf source_language targets name
    · obtain ⟨hroute, hbuilt⟩ := hshare language hlanguage
      have hnllb : name = NLLB := by
        obtain ⟨⟨-, hsupports⟩, -⟩ := mem_shareOf.mp hlanguage
        rcases built_cases hnew ((supports_served hnew _ _).mp hsupports).2 with h | h
        · exact absurd (hroute.symm.trans h.1) hname
        · exact hroute.symm.trans h.1
      have hsupports := (mt_nllb.supports_new (mapError_eq_ok.mp ha) source_language language).mpr
        ⟨rfl, hnllb ▸ hbuilt⟩
      rw [if_pos (List.mem_filter.mpr ⟨hlanguage, hsupports⟩), if_pos hlanguage,
        if_neg (fun h => hname (hroute.symm.trans h)), batch_text (hbatch _ hfiles) hsupports]
    · rw [if_neg (fun h => hlanguage (List.mem_filter.mp h).1), if_neg hlanguage]

/-- Both backends answer for what they are given, as the fan-out relies on. -/
theorem keyed_answer (hbatch : ∀ files, options.path.opened = .ok files → Itemwise files alone)
    (hnew : RoutingMtAdapter.new options.build source_language served routes = .ok r) (name : String) :
    Keyed (r.shareOf source_language targets name) (options.answer source_language served routes text
      name (r.shareOf source_language targets name)) := by
  cases hanswer : options.answer source_language served routes text name
      (r.shareOf source_language targets name) with
  | none => trivial
  | some answer =>
    have hget := get?_answer hbatch hnew hanswer
    constructor
    · intro language hkey
      by_contra hnot
      obtain ⟨found, hfound⟩ := mem_keys.mp hkey
      rw [hget, if_neg hnot] at hfound
      cases hfound
    · intro language hlanguage
      exact mem_keys.mpr ⟨_, (hget language).trans (if_pos hlanguage)⟩

end

/-- A backend has what a turn of the run answered for it, or it is missing. -/
theorem answered_of_run {source text : String} {grouped : OrderedDict String (List String)}
    {turns : List Turn} {g : Gathering} (hrun : (gather r text source grouped).run turns = some g)
    {name : String} {outcome : Option Answer} (h : g.progress name = .answered outcome) :
    outcome = none ∨ Turn.answer name outcome ∈ turns := by
  revert name outcome
  refine (gather r text source grouped).run_induction (P := fun turns g => ∀ {name outcome},
    g.progress name = .answered outcome → outcome = none ∨ Turn.answer name outcome ∈ turns)
    ?_ ?_ hrun
  · intro name outcome h
    cases h
  · intro turns g turn g' _ ih hstep name outcome h
    have hkeep : g.progress name = .answered outcome →
        outcome = none ∨ Turn.answer name outcome ∈ turns ++ [turn] :=
      fun hold => (ih hold).imp_right (List.mem_append_left _)
    cases turn with
    | call backend =>
      simp only [gather] at hstep
      split at hstep
      · split at hstep
        · cases hstep
          by_cases hname : name = backend
          · subst hname
            simp only [Function.update_self, Progress.answered.injEq] at h
            exact .inl h.symm
          · simp only [Function.update_of_ne hname] at h
            exact hkeep h
        · cases hstep
          by_cases hname : name = backend
          · subst hname
            simp at h
          · simp only [Function.update_of_ne hname] at h
            exact hkeep h
      · cases hstep
    | answer backend outcome' =>
      simp only [gather] at hstep
      split at hstep
      · split at hstep
        · cases hstep
          by_cases hname : name = backend
          · subst hname
            simp only [Function.update_self, Progress.answered.injEq] at h
            exact .inr (by simp [h])
          · simp only [Function.update_of_ne hname] at h
            exact hkeep h
        · cases hstep
      · cases hstep

/-- A phrase that is fanned out to the two backends, in every order of their
turns. Each requested language that the session serves has what its own model
makes of the phrase, whatever comes of the others, and a blank when its backend
raised. No other language has a text. -/
theorem each_language_has_the_text_of_its_own_model [Casing] (options : Options)
    (alone : List String → List String → Nat → Nat → Option (List String))
    (hbatch : ∀ files, options.path.opened = .ok files → Itemwise files alone)
    (source_language : String) (served : List String) (routes : Option (OrderedDict String String))
    (r : RoutingMtAdapter)
    (hnew : RoutingMtAdapter.new options.build source_language served routes = .ok r)
    (text : String) (targets : List String) (grouped : OrderedDict String (List String))
    (hgrouped : r.fanOut source_language targets = .ok grouped) (turns : List Turn) (g : Gathering)
    (hrun : (gather r text source_language grouped).run turns = some g) (merged : Answer)
    (hresult : g.result grouped = some merged)
    (hanswers : ∀ name outcome, Turn.answer name outcome ∈ turns → outcome = none ∨
      outcome = options.answer source_language served routes text name
        (r.shareOf source_language targets name)) :
    (∀ name, Keyed (r.shareOf source_language targets name) (options.answer source_language served
      routes text name (r.shareOf source_language targets name))) ∧
    ∀ language,
      (language ∈ targets ∧ language ∈ served →
        (g.progress (routeFor language routes) = .answered none ∧ merged.get? language = some "") ∨
        merged.get? language = some (options.ownText source_language served routes text alone
          (r.shareOf source_language targets (routeFor language routes)) language)) ∧
      (¬ (language ∈ targets ∧ language ∈ served) → merged.get? language = none) := by
  refine ⟨keyed_answer hbatch hnew, ?_⟩
  intro language
  have hkeys : language ∈ merged.keys ↔ language ∈ targets ∧ language ∈ served := by
    rw [mem_keys_result hgrouped hrun hresult, supports_served hnew]
    simp
  constructor
  · intro hwanted
    have hassigned : r.assignment.get? language = some (routeFor language routes) := by
      rw [assignment_new hnew, if_pos hwanted.2]
    obtain ⟨outcome, hprogress, htext⟩ := get?_result hgrouped hrun hresult (hkeys.mpr hwanted) hassigned
    cases outcome with
    | none => exact .inl ⟨hprogress, htext⟩
    | some answer =>
      right
      have hanswer := (answered_of_run hrun hprogress).resolve_left (by simp)
      have hown := (hanswers _ _ hanswer).resolve_left (by simp)
      have hshare : language ∈ r.shareOf source_language targets (routeFor language routes) :=
        mem_shareOf.mpr ⟨⟨hwanted.1, (supports_served hnew _ _).mpr ⟨rfl, hwanted.2⟩⟩, hassigned⟩
      rw [htext, textFrom, get?_answer hbatch hnew hown.symm, if_pos hshare]
  · intro hnot
    exact get?_eq_none.mpr (mt hkeys.mp hnot)

/-- French by Opus-MT, and Hindi by NLLB. -/
def twoModels : Options :=
  ⟨threeLanguages, "models/mt", 1, 3, ⟨true, .ok hindiFiles⟩, "models/mt/nllb-600m", 1, 3⟩

section

open mt_opus.ascii

/-- Both are called, and NLLB is the first to answer. -/
def bothAnswer (r : RoutingMtAdapter) : List Turn :=
  let answer := fun name => Turn.answer name (twoModels.answer "en" ["fr", "hi"] none "hello." name
    (r.shareOf "en" ["hi", "fr", "xx"] name))
  [.call "opus-mt", .call "nllb-200", answer "nllb-200", answer "opus-mt"]

theorem bothAnswer_evaluated :
    ((RoutingMtAdapter.new twoModels.build "en" ["fr", "hi"] none).toOption.bind fun r =>
      (r.fanOut "en" ["hi", "fr", "xx"]).toOption.bind fun grouped =>
        ((gather r "hello." "en" grouped).run (bothAnswer r)).bind fun g =>
          (g.result grouped).map fun merged => merged.entries) =
      some [("hi", "namaste."), ("fr", "bonjour.")] := by
  decide +kernel

theorem each_language_has_its_text_in_french_and_hindi :
    ∃ r grouped g merged, RoutingMtAdapter.new twoModels.build "en" ["fr", "hi"] none = .ok r ∧
      r.fanOut "en" ["hi", "fr", "xx"] = .ok grouped ∧
      (gather r "hello." "en" grouped).run (bothAnswer r) = some g ∧ g.result grouped = some merged ∧
      merged.entries = [("hi", "namaste."), ("fr", "bonjour.")] ∧ merged.get? "xx" = none := by
  obtain ⟨r, hr, h⟩ := Option.bind_eq_some_iff.mp bothAnswer_evaluated
  obtain ⟨grouped, hgrouped, h⟩ := Option.bind_eq_some_iff.mp h
  obtain ⟨g, hrun, h⟩ := Option.bind_eq_some_iff.mp h
  obtain ⟨merged, hresult, h⟩ := Option.map_eq_some_iff.mp h
  rw [toOption_eq_some] at hr hgrouped
  have hbatch : ∀ files, twoModels.path.opened = .ok files → Itemwise files hindiAlone := by
    intro files hfiles
    cases hfiles
    exact fun _ _ _ _ _ => rfl
  have hanswers : ∀ name outcome, Turn.answer name outcome ∈ bothAnswer r → outcome = none ∨
      outcome = twoModels.answer "en" ["fr", "hi"] none "hello." name
        (r.shareOf "en" ["hi", "fr", "xx"] name) := by
    intro name outcome hmem
    simp only [bothAnswer, List.mem_cons, List.not_mem_nil, or_false, reduceCtorEq, false_or,
      Turn.answer.injEq] at hmem
    rcases hmem with ⟨rfl, rfl⟩ | ⟨rfl, rfl⟩
    · exact .inr rfl
    · exact .inr rfl
  have htexts := (each_language_has_the_text_of_its_own_model twoModels hindiAlone hbatch "en"
    ["fr", "hi"] none r hr "hello." ["hi", "fr", "xx"] grouped hgrouped (bothAnswer r) g hrun merged
    hresult hanswers).2
  exact ⟨r, grouped, g, merged, hr, hgrouped, hrun, hresult, h, (htexts "xx").2 (by decide)⟩

end

end lad_translate.mt_routing
