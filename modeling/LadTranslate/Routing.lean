-- Translation routing (adapters/mt_routing.py): which backend serves which
-- language, and one call that is fanned out over the backends. The backends
-- run concurrently: a turn is the call of one of them, or its answer. A backend
-- raises, or it returns a text for just the languages that it was given. Log
-- lines and the options of the backends are left out.
import LadTranslate.Fallible
import LadTranslate.Machines
import LadTranslate.OrderedDicts
import LadTranslate.Text

open fallible machines ordered_dicts

namespace lad_translate.mt_routing

open OrderedDict

open phrase_chunker (reprText)

/-! ## The routes -/

def OPUS : String := "opus-mt"

def NLLB : String := "nllb-200"

/-- Language to backend. Anything absent goes to the default. -/
def DEFAULT_ROUTES : OrderedDict String String :=
  ofKeys (fun _ => NLLB) ["hi", "te", "ta", "ml", "kn", "bn", "mr", "ur"]

def DEFAULT_BACKEND : String := OPUS

/-- Which backend serves a language. No table means the default one. -/
def routeFor (language : String) (routes : Option (OrderedDict String String)) : String :=
  ((routes.getD DEFAULT_ROUTES).get? language).getD DEFAULT_BACKEND

/-! ## The adapter -/

/-- What the adapter asks of a backend before it calls it. -/
structure Backend where
  supports : String → String → Bool

structure RoutingMtAdapter where
  source_language : String
  routes : OrderedDict String String
  backends : OrderedDict String Backend
  assignment : OrderedDict String String

namespace RoutingMtAdapter

/-- `build` makes a backend for a source and its languages. -/
def new (build : String → String → List String → Except String Backend) (source_language : String)
    (targets : List String) (routes : Option (OrderedDict String String)) :
    Except String RoutingMtAdapter := do
  let table := routes.getD DEFAULT_ROUTES
  let assignment := ofKeys (routeFor · (some table)) targets
  let grouped := group (assignment.entries.map fun p => (p.2, p.1))
  let backends ← grouped.entries.foldlM (fun backends p => do
    if p.1 = OPUS ∨ p.1 = NLLB then return backends.set p.1 (← build p.1 source_language p.2)
    else throw ("unknown translation backend " ++ reprText p.1)) empty
  return { source_language, routes := table, backends, assignment }

def supports (r : RoutingMtAdapter) (source target : String) : Bool :=
  if source ≠ r.source_language then false
  else
    match r.assignment.get? target with
    | none => false
    | some name =>
      match r.backends.get? name with
      | none => false
      | some backend => backend.supports source target

/-- The languages of each backend that has some, for `translate_many`. -/
def fanOut (r : RoutingMtAdapter) (source : String) (targets : List String) :
    Except String (OrderedDict String (List String)) := do
  let wanted := targets.filter (r.supports source)
  if wanted = [] then return empty
  let pairs ← wanted.mapM fun target =>
    match r.assignment.get? target with
    | none => throw target
    | some name => return (name, target)
  return group pairs

end RoutingMtAdapter

/-! ## The fan-out -/

/-- A text for each language. -/
abbrev Answer := OrderedDict String String

/-- A backend answers for just the languages that it was given, or it raises. -/
def Keyed (languages : List String) : Option Answer → Prop
  | none => True
  | some answer =>
    (∀ language ∈ answer.keys, language ∈ languages) ∧ ∀ language ∈ languages, language ∈ answer.keys

instance decidableKeyed (languages : List String) : (outcome : Option Answer) →
    Decidable (Keyed languages outcome)
  | none => isTrue trivial
  | some _ => inferInstanceAs (Decidable (_ ∧ _))

/-- How far `run` has come with a backend. -/
inductive Progress
  | scheduled
  | called
  | answered (outcome : Option Answer)

/-- A call of `translate_many` of a backend. -/
structure Call where
  backend : String
  text : String
  source : String
  languages : List String
deriving DecidableEq

/-- The tasks of `gather`, and a record of the calls. -/
structure Gathering where
  progress : String → Progress
  calls : List Call

inductive Turn
  | call (backend : String)
  | answer (backend : String) (outcome : Option Answer)

/-- The tasks run concurrently. `run` catches a missing backend too. -/
def gather (r : RoutingMtAdapter) (text source : String)
    (grouped : OrderedDict String (List String)) : Machine Gathering Turn where
  start := ⟨fun _ => .scheduled, []⟩
  step g
    | .call backend =>
      match grouped.get? backend, g.progress backend with
      | some languages, .scheduled =>
        match r.backends.get? backend with
        | none => some { g with progress := Function.update g.progress backend (.answered none) }
        | some _ => some
          { progress := Function.update g.progress backend .called
            calls := g.calls ++ [⟨backend, text, source, languages⟩] }
      | _, _ => none
    | .answer backend outcome =>
      match grouped.get? backend, g.progress backend with
      | some languages, .called =>
        if Keyed languages outcome then
          some { g with progress := Function.update g.progress backend (.answered outcome) }
        else none
      | _, _ => none

/-- What `run` returns: the answer, or blanks for a backend that raised. -/
def partOf (languages : List String) (outcome : Option Answer) : Answer :=
  outcome.getD (ofKeys (fun _ => "") languages)

/-- What `translate_many` returns, when every task has its answer. -/
def Gathering.result (grouped : OrderedDict String (List String)) (g : Gathering) : Option Answer :=
  let parts := grouped.entries.mapM fun (backend, languages) =>
    match g.progress backend with
    | .answered outcome => some (partOf languages outcome)
    | _ => none
  parts.map merge

/-! ## Which languages a backend is given -/

variable {r : RoutingMtAdapter} {text source : String} {targets : List String}
  {grouped : OrderedDict String (List String)}

/-- The languages that a backend is to translate. -/
def RoutingMtAdapter.shareOf (r : RoutingMtAdapter) (source : String) (targets : List String)
    (backend : String) : List String :=
  (targets.filter (r.supports source)).filter fun target => r.assignment.get? target = some backend

theorem supports_cases {target : String} (h : r.supports source target = true) :
    ∃ name backend, r.assignment.get? target = some name ∧ r.backends.get? name = some backend := by
  unfold RoutingMtAdapter.supports at h
  split at h
  · cases h
  · split at h
    · cases h
    · rename_i name hname
      split at h
      · cases h
      · rename_i backend hbackend
        exact ⟨name, backend, hname, hbackend⟩

/-- The targets that are wanted have a backend, so the fan-out does not fail. -/
theorem fanOut_ok (r : RoutingMtAdapter) (source : String) (targets : List String) :
    ∃ grouped, r.fanOut source targets = .ok grouped ∧ ∀ backend, grouped.get? backend =
      if r.shareOf source targets backend = [] then none
      else some (r.shareOf source targets backend) := by
  unfold RoutingMtAdapter.fanOut RoutingMtAdapter.shareOf
  have hassigned : ∀ target ∈ targets.filter (r.supports source),
      ∃ name, r.assignment.get? target = some name := by
    intro target htarget
    obtain ⟨name, -, hname, -⟩ := supports_cases (List.mem_filter.mp htarget).2
    exact ⟨name, hname⟩
  generalize targets.filter (r.supports source) = wanted at hassigned ⊢
  by_cases hnone : wanted = []
  · subst hnone
    exact ⟨empty, rfl, fun backend => rfl⟩
  · have hpairs : ∃ pairs : List (String × String), (wanted.mapM fun target =>
        match r.assignment.get? target with
        | none => throw target
        | some name => return (name, target)) = (Except.ok pairs : Except String _) ∧
        ∀ backend, share pairs backend =
          wanted.filter fun target => r.assignment.get? target = some backend := by
      clear hnone
      induction wanted with
      | nil => exact ⟨[], rfl, fun backend => rfl⟩
      | cons target wanted ih =>
        obtain ⟨name, hname⟩ := hassigned target List.mem_cons_self
        obtain ⟨pairs, hpairs, hshare⟩ := ih fun t ht => hassigned t (List.mem_cons_of_mem _ ht)
        refine ⟨(name, target) :: pairs, ?_, ?_⟩
        · rw [List.mapM_cons, hname]
          exact bind_eq_ok.mpr ⟨_, rfl, bind_eq_ok.mpr ⟨pairs, hpairs, rfl⟩⟩
        · intro backend
          have hrest := hshare backend
          unfold share at hrest ⊢
          by_cases hb : name = backend
          · simp [hb, hname, hrest]
          · simp [hb, hname, hrest]
    obtain ⟨pairs, hpairs, hshare⟩ := hpairs
    refine ⟨group pairs, ?_, ?_⟩
    · simp only [hnone, if_false]
      exact bind_eq_ok.mpr ⟨pairs, hpairs, rfl⟩
    · intro backend
      rw [get?_group, hshare]

/-! ## What a turn does -/

/-- A backend that is there is called, a missing one counts as raised, and a
backend that was called answers. -/
inductive Turned (r : RoutingMtAdapter) (text source : String)
    (grouped : OrderedDict String (List String)) (g : Gathering) : Gathering → Prop
  | calls {backend : String} {languages : List String}
      (hlanguages : grouped.get? backend = some languages)
      (hprogress : g.progress backend = .scheduled) (hthere : r.backends.get? backend ≠ none) :
      Turned r text source grouped g
        { progress := Function.update g.progress backend .called
          calls := g.calls ++ [⟨backend, text, source, languages⟩] }
  | misses {backend : String} {languages : List String}
      (hlanguages : grouped.get? backend = some languages)
      (hprogress : g.progress backend = .scheduled) (hmissing : r.backends.get? backend = none) :
      Turned r text source grouped g
        { g with progress := Function.update g.progress backend (.answered none) }
  | answers {backend : String} {languages : List String} {outcome : Option Answer}
      (hlanguages : grouped.get? backend = some languages)
      (hprogress : g.progress backend = .called) (hkeyed : Keyed languages outcome) :
      Turned r text source grouped g
        { g with progress := Function.update g.progress backend (.answered outcome) }

theorem gather_turned {g g' : Gathering} {turn : Turn}
    (h : (gather r text source grouped).step g turn = some g') :
    Turned r text source grouped g g' := by
  cases turn with
  | call backend =>
    simp only [gather] at h
    split at h
    · rename_i languages hlanguages hprogress
      split at h
      · rename_i hmissing
        cases h
        exact .misses hlanguages hprogress hmissing
      · rename_i found hfound
        cases h
        exact .calls hlanguages hprogress (by simp [hfound])
    · cases h
  | answer backend outcome =>
    simp only [gather] at h
    split at h
    · rename_i languages hlanguages hprogress
      split at h
      · rename_i hkeyed
        cases h
        exact .answers hlanguages hprogress hkeyed
      · cases h
    · cases h

/-! ## Every order of turns -/

def Progress.started : Progress → Bool
  | .scheduled => false
  | _ => true

/-- The calls of a backend that there should be by now. -/
def Gathering.due (text source : String) (grouped : OrderedDict String (List String))
    (g : Gathering) (backend : String) : List Call :=
  match grouped.get? backend with
  | none => []
  | some languages =>
    if (g.progress backend).started then [⟨backend, text, source, languages⟩] else []

/-- Each backend was called once or is still to be called, and it answered for
what it was given. -/
structure Sound (text source : String) (grouped : OrderedDict String (List String))
    (g : Gathering) : Prop where
  calls : ∀ backend, g.calls.filter (·.backend = backend) = g.due text source grouped backend
  keyed : ∀ backend languages outcome, grouped.get? backend = some languages →
    g.progress backend = .answered outcome → Keyed languages outcome

/-- A turn of one backend leaves what is due of the others. -/
theorem due_update {g : Gathering} {backend other : String} {progress : Progress}
    {calls : List Call} (h : other ≠ backend) :
    Gathering.due text source grouped ⟨Function.update g.progress backend progress, calls⟩ other =
      g.due text source grouped other := by
  unfold Gathering.due
  simp only [Function.update_of_ne h]

theorem sound_turned (hthere : ∀ backend languages, grouped.get? backend = some languages →
    r.backends.get? backend ≠ none) {g g' : Gathering} (h : Sound text source grouped g)
    (hturn : Turned r text source grouped g g') : Sound text source grouped g' := by
  cases hturn with
  | @calls backend languages hlanguages hprogress _ =>
    constructor
    · intro other
      rw [List.filter_append, h.calls]
      by_cases hother : other = backend
      · subst hother
        simp [Gathering.due, hlanguages, hprogress, Progress.started]
      · rw [due_update hother, List.filter_cons_of_neg (by simpa using Ne.symm hother),
          List.filter_nil, List.append_nil]
    · intro other languages' outcome hlanguages' houtcome
      by_cases hother : other = backend
      · subst hother
        simp at houtcome
      · simp only [Function.update_of_ne hother] at houtcome
        exact h.keyed other languages' outcome hlanguages' houtcome
  | misses hlanguages hprogress hmissing => exact absurd hmissing (hthere _ _ hlanguages)
  | @answers backend languages outcome hlanguages hprogress hkeyed =>
    constructor
    · intro other
      rw [h.calls]
      by_cases hother : other = backend
      · subst hother
        simp [Gathering.due, hlanguages, hprogress, Progress.started]
      · rw [due_update hother]
    · intro other languages' outcome' hlanguages' houtcome
      by_cases hother : other = backend
      · subst hother
        simp only [Function.update_self] at houtcome
        cases houtcome
        rw [hlanguages, Option.some.injEq] at hlanguages'
        exact hlanguages' ▸ hkeyed
      · simp only [Function.update_of_ne hother] at houtcome
        exact h.keyed other languages' outcome' hlanguages' houtcome

theorem sound_run (hthere : ∀ backend languages, grouped.get? backend = some languages →
    r.backends.get? backend ≠ none) {turns : List Turn} {g : Gathering}
    (hrun : (gather r text source grouped).run turns = some g) : Sound text source grouped g := by
  refine (gather r text source grouped).invariant (P := Sound text source grouped) ?_ ?_ ⟨turns, hrun⟩
  · constructor
    · intro backend
      simp only [gather, Gathering.due, Progress.started]
      split <;> rfl
    · intro backend languages outcome _ houtcome
      cases houtcome
  · intro s turn t hs hstep
    exact sound_turned hthere hs (gather_turned hstep)

/-! ## The end of a run -/

/-- The turns that a task has to come. -/
def Progress.left : Progress → Nat
  | .scheduled => 2
  | .called => 1
  | .answered _ => 0

/-- The turns that are left. -/
def Gathering.left (grouped : OrderedDict String (List String)) (g : Gathering) : Nat :=
  (grouped.entries.map fun p => (g.progress p.1).left).sum

theorem left_update {g : Gathering} {backend : String} {languages : List String}
    {progress : Progress} {calls : List Call} (hlanguages : grouped.get? backend = some languages)
    (hlt : progress.left < (g.progress backend).left) :
    Gathering.left grouped ⟨Function.update g.progress backend progress, calls⟩ < g.left grouped := by
  unfold Gathering.left
  apply List.sum_lt_sum
  · intro p _
    by_cases hp : p.1 = backend
    · simp only [hp, Function.update_self]
      exact hlt.le
    · simp only [Function.update_of_ne hp]
      exact le_rfl
  · refine ⟨(backend, languages), get?_eq_some.mp hlanguages, ?_⟩
    simpa only [Function.update_self] using hlt

/-- Every turn brings the fan-out nearer to its end. -/
theorem left_turned {g g' : Gathering} (hturn : Turned r text source grouped g g') :
    g'.left grouped < g.left grouped := by
  cases hturn with
  | calls hlanguages hprogress _ =>
    apply left_update hlanguages
    rw [hprogress]
    decide
  | misses hlanguages hprogress _ =>
    apply left_update hlanguages
    rw [hprogress]
    decide
  | answers hlanguages hprogress _ =>
    apply left_update hlanguages
    rw [hprogress]
    exact Nat.zero_lt_one

theorem turns_bounded {turns : List Turn} {g : Gathering}
    (hrun : (gather r text source grouped).run turns = some g) :
    turns.length ≤ 2 * grouped.entries.length := by
  have hle := (gather r text source grouped).length_le_of_measure (P := fun _ => True)
    (Gathering.left grouped) (fun _ _ _ _ _ => trivial)
    (fun _ _ _ _ hstep => left_turned (gather_turned hstep)) trivial hrun
  have hstart : Gathering.left grouped (gather r text source grouped).start =
      2 * grouped.entries.length := by
    simp only [Gathering.left, gather, Progress.left, List.map_const', List.sum_replicate, smul_eq_mul]
    exact Nat.mul_comm _ _
  omega

/-- While an answer is missing, some backend has its turn. -/
theorem exists_turn {g : Gathering} (hnone : g.result grouped = none) :
    ∃ turn g', (gather r text source grouped).step g turn = some g' := by
  obtain ⟨⟨backend, languages⟩, hentry, hmissing⟩ :=
    exists_of_mapM_eq_none (Option.map_eq_none_iff.mp hnone)
  have hlanguages := get?_eq_some.mpr hentry
  simp only at hmissing
  cases hprogress : g.progress backend with
  | scheduled =>
    refine ⟨.call backend, ?_⟩
    simp only [gather, hlanguages, hprogress]
    split
    · exact ⟨_, rfl⟩
    · exact ⟨_, rfl⟩
  | called =>
    refine ⟨.answer backend none, ?_⟩
    simp only [gather, hlanguages, hprogress]
    exact ⟨_, rfl⟩
  | answered outcome =>
    rw [hprogress] at hmissing
    cases hmissing

/-! ## The merged answer -/

/-- The text that a backend gave for a language, blank when it raised. -/
def textFrom (outcome : Option Answer) (language : String) : Option String :=
  match outcome with
  | none => some ""
  | some answer => answer.get? language

theorem mem_keys_partOf {languages : List String} {outcome : Option Answer} {language : String}
    (h : Keyed languages outcome) : language ∈ (partOf languages outcome).keys ↔ language ∈ languages := by
  cases outcome with
  | none => exact mem_keys_ofKeys
  | some answer => exact ⟨h.1 language, h.2 language⟩

theorem get?_partOf {languages : List String} {outcome : Option Answer} {language : String}
    (h : language ∈ languages) : (partOf languages outcome).get? language = textFrom outcome language := by
  cases outcome with
  | none =>
    rw [partOf, Option.getD_none, get?_ofKeys, if_pos h]
    rfl
  | some answer => rfl

/-- What is merged has an answer of every backend, and nothing else. -/
theorem result_parts {g : Gathering} {merged : Answer} (hresult : g.result grouped = some merged) :
    ∃ parts, merged = merge parts ∧
      (∀ backend languages, grouped.get? backend = some languages → ∃ outcome,
        g.progress backend = .answered outcome ∧ partOf languages outcome ∈ parts) ∧
      ∀ part ∈ parts, ∃ backend languages outcome, grouped.get? backend = some languages ∧
        g.progress backend = .answered outcome ∧ part = partOf languages outcome := by
  obtain ⟨parts, hparts, rfl⟩ := Option.map_eq_some_iff.mp hresult
  obtain ⟨hto, hfrom⟩ := mem_of_mapM_eq_some hparts
  have hanswered : ∀ backend languages part, (match g.progress backend with
      | .answered outcome => some (partOf languages outcome)
      | _ => none) = some part →
      ∃ outcome, g.progress backend = .answered outcome ∧ part = partOf languages outcome := by
    intro backend languages part hpart
    split at hpart
    · rename_i outcome hprogress
      exact ⟨outcome, hprogress, (Option.some.inj hpart).symm⟩
    · cases hpart
  refine ⟨parts, rfl, ?_, ?_⟩
  · intro backend languages hlanguages
    obtain ⟨part, hmem, hpart⟩ := hto _ (get?_eq_some.mp hlanguages)
    obtain ⟨outcome, hprogress, rfl⟩ := hanswered _ _ _ hpart
    exact ⟨outcome, hprogress, hmem⟩
  · intro part hmem
    obtain ⟨p, hentry, hpart⟩ := hfrom part hmem
    obtain ⟨outcome, hprogress, rfl⟩ := hanswered _ _ _ hpart
    exact ⟨p.1, p.2, outcome, get?_eq_some.mpr hentry, hprogress, rfl⟩

theorem mem_shareOf {backend language : String} : language ∈ r.shareOf source targets backend ↔
    (language ∈ targets ∧ r.supports source language = true) ∧
      r.assignment.get? language = some backend := by
  unfold RoutingMtAdapter.shareOf
  rw [List.mem_filter, List.mem_filter, decide_eq_true_iff]

/-- The fan-out gives a backend its share. -/
theorem get?_fanOut (hgrouped : r.fanOut source targets = .ok grouped) (backend : String) :
    grouped.get? backend = if r.shareOf source targets backend = [] then none
      else some (r.shareOf source targets backend) := by
  obtain ⟨grouped', hgrouped', hshare⟩ := fanOut_ok r source targets
  rw [hgrouped] at hgrouped'
  cases hgrouped'
  exact hshare backend

/-- A language was given to its backend, and to no other. -/
theorem given_iff (hgrouped : r.fanOut source targets = .ok grouped) {language backend : String} :
    (∃ languages, grouped.get? backend = some languages ∧ language ∈ languages) ↔
      (language ∈ targets ∧ r.supports source language = true) ∧
        r.assignment.get? language = some backend := by
  rw [get?_fanOut hgrouped, ← mem_shareOf]
  by_cases hnil : r.shareOf source targets backend = []
  · simp [hnil]
  · simp [hnil]

theorem there_of_fanOut (hgrouped : r.fanOut source targets = .ok grouped) {backend : String}
    {languages : List String} (hlanguages : grouped.get? backend = some languages) :
    r.backends.get? backend ≠ none := by
  rw [get?_fanOut hgrouped] at hlanguages
  split at hlanguages
  · cases hlanguages
  · rename_i hsome
    obtain ⟨language, hmem⟩ := List.exists_mem_of_ne_nil _ hsome
    obtain ⟨⟨-, hsupports⟩, hassigned⟩ := mem_shareOf.mp hmem
    obtain ⟨name, found, hname, hfound⟩ := supports_cases hsupports
    rw [hassigned, Option.some.injEq] at hname
    rw [hname, hfound]
    exact Option.some_ne_none _

section

variable {turns : List Turn} {g : Gathering} {merged : Answer}
  (hgrouped : r.fanOut source targets = .ok grouped)
  (hrun : (gather r text source grouped).run turns = some g)
  (hresult : g.result grouped = some merged)

include hgrouped hrun hresult

theorem mem_keys_result {language : String} : language ∈ merged.keys ↔
    language ∈ targets ∧ r.supports source language = true := by
  have hsound := sound_run (fun _ _ => there_of_fanOut hgrouped) hrun
  obtain ⟨parts, rfl, hall, honly⟩ := result_parts hresult
  rw [mem_keys_merge]
  constructor
  · rintro ⟨part, hpart, hmem⟩
    obtain ⟨backend, languages, outcome, hlanguages, hprogress, rfl⟩ := honly part hpart
    rw [mem_keys_partOf (hsound.keyed _ _ _ hlanguages hprogress)] at hmem
    exact ((given_iff hgrouped).mp ⟨languages, hlanguages, hmem⟩).1
  · intro hwanted
    obtain ⟨backend, -, hassigned, -⟩ := supports_cases hwanted.2
    obtain ⟨languages, hlanguages, hmem⟩ := (given_iff hgrouped).mpr ⟨hwanted, hassigned⟩
    obtain ⟨outcome, hprogress, hpart⟩ := hall backend languages hlanguages
    exact ⟨_, hpart, (mem_keys_partOf (hsound.keyed _ _ _ hlanguages hprogress)).mpr hmem⟩

/-- The text of a language comes from the backend that it is assigned to. -/
theorem get?_result {language backend : String} (hmem : language ∈ merged.keys)
    (hassigned : r.assignment.get? language = some backend) :
    ∃ outcome, g.progress backend = .answered outcome ∧
      merged.get? language = textFrom outcome language := by
  have hwanted := (mem_keys_result hgrouped hrun hresult).mp hmem
  have hsound := sound_run (fun _ _ => there_of_fanOut hgrouped) hrun
  obtain ⟨parts, rfl, hall, honly⟩ := result_parts hresult
  obtain ⟨languages, hlanguages, hgiven⟩ := (given_iff hgrouped).mpr ⟨hwanted, hassigned⟩
  obtain ⟨outcome, hprogress, hpart⟩ := hall backend languages hlanguages
  refine ⟨outcome, hprogress, ?_⟩
  have hkey := (mem_keys_partOf (hsound.keyed _ _ _ hlanguages hprogress)).mpr hgiven
  obtain ⟨translated, htranslated⟩ := mem_keys.mp hkey
  rw [← get?_partOf hgiven, htranslated]
  apply get?_merge ⟨_, hpart, hkey⟩
  -- no other part has the language: it is assigned to one backend
  intro part hother hmem
  obtain ⟨backend', languages', outcome', hlanguages', hprogress', rfl⟩ := honly part hother
  rw [mem_keys_partOf (hsound.keyed _ _ _ hlanguages' hprogress')] at hmem
  have hassigned' := ((given_iff hgrouped).mp ⟨languages', hlanguages', hmem⟩).2
  rw [hassigned, Option.some.injEq] at hassigned'
  subst hassigned'
  rw [hlanguages, Option.some.injEq] at hlanguages'
  rw [hprogress, Progress.answered.injEq] at hprogress'
  rw [← hlanguages', ← hprogress']
  exact htranslated

/-- At the end each backend with a share was called once, with all of it. -/
theorem calls_result (backend : String) : g.calls.filter (·.backend = backend) =
    if r.shareOf source targets backend = [] then []
    else [⟨backend, text, source, r.shareOf source targets backend⟩] := by
  have hsound := sound_run (fun _ _ => there_of_fanOut hgrouped) hrun
  obtain ⟨parts, -, hall, -⟩ := result_parts hresult
  rw [hsound.calls, Gathering.due, get?_fanOut hgrouped]
  by_cases hnil : r.shareOf source targets backend = []
  · rw [if_pos hnil, if_pos hnil]
  · have hlanguages := get?_fanOut hgrouped backend
    rw [if_neg hnil] at hlanguages
    obtain ⟨outcome, hprogress, -⟩ := hall backend _ hlanguages
    rw [if_neg hnil, if_neg hnil, hprogress]
    rfl

end

/-- The constructor assigns each of its targets to its route. -/
theorem assignment_new {build : String → String → List String → Except String Backend}
    {source_language : String} {served : List String} {routes : Option (OrderedDict String String)}
    (hnew : RoutingMtAdapter.new build source_language served routes = .ok r) (language : String) :
    r.assignment.get? language =
      if language ∈ served then some (routeFor language routes) else none := by
  obtain ⟨backends, -, hr⟩ := bind_eq_ok.mp hnew
  cases hr
  exact get?_ofKeys _ _ _

/-- One call of `translate_many`, over every order of the backends and every
pattern of failures. It ends, and nothing is raised on the way. Its keys are the
requested targets that are supported. The text of a language is what its own
backend gave, whatever the others did. Each backend with a share is called once,
and no other. -/
theorem a_failing_backend_blanks_its_own_languages
    (build : String → String → List String → Except String Backend) (source_language : String)
    (served : List String) (routes : Option (OrderedDict String String)) (r : RoutingMtAdapter)
    (hnew : RoutingMtAdapter.new build source_language served routes = .ok r)
    (text source : String) (targets : List String) :
    ∃ grouped, r.fanOut source targets = .ok grouped ∧
    ∀ turns g, (gather r text source grouped).run turns = some g →
      turns.length ≤ 2 * grouped.entries.length ∧
      (g.result grouped = none → ∃ turn g', (gather r text source grouped).step g turn = some g') ∧
      ∀ merged, g.result grouped = some merged →
        (∀ language, language ∈ merged.keys ↔
          language ∈ targets ∧ r.supports source language = true) ∧
        (∀ language ∈ merged.keys, ∃ outcome,
          g.progress (routeFor language routes) = .answered outcome ∧
          merged.get? language = textFrom outcome language) ∧
        (∀ turns' g' merged', (gather r text source grouped).run turns' = some g' →
          g'.result grouped = some merged' → ∀ language ∈ merged.keys,
          g'.progress (routeFor language routes) = g.progress (routeFor language routes) →
          merged'.get? language = merged.get? language) ∧
        ∀ backend, g.calls.filter (·.backend = backend) =
          if r.shareOf source targets backend = [] then []
          else [⟨backend, text, source, r.shareOf source targets backend⟩] := by
  obtain ⟨grouped, hgrouped, -⟩ := fanOut_ok r source targets
  have hroute : ∀ language, r.supports source language = true →
      r.assignment.get? language = some (routeFor language routes) := by
    intro language hsupports
    obtain ⟨name, -, hname, -⟩ := supports_cases hsupports
    rw [assignment_new hnew] at hname ⊢
    split at hname
    · rename_i hserved
      rw [if_pos hserved]
    · cases hname
  refine ⟨grouped, hgrouped, ?_⟩
  intro turns g hrun
  refine ⟨turns_bounded hrun, exists_turn, ?_⟩
  intro merged hresult
  have hkeys : ∀ language, language ∈ merged.keys ↔
      language ∈ targets ∧ r.supports source language = true :=
    fun language => mem_keys_result hgrouped hrun hresult
  have htexts : ∀ language ∈ merged.keys, ∃ outcome,
      g.progress (routeFor language routes) = .answered outcome ∧
      merged.get? language = textFrom outcome language := fun language hmem =>
    get?_result hgrouped hrun hresult hmem (hroute language ((hkeys language).mp hmem).2)
  refine ⟨hkeys, htexts, ?_, calls_result hgrouped hrun hresult⟩
  intro turns' g' merged' hrun' hresult' language hmem hsame
  have hwanted := (hkeys language).mp hmem
  obtain ⟨outcome, hprogress, htext⟩ := htexts language hmem
  obtain ⟨outcome', hprogress', htext'⟩ := get?_result hgrouped hrun' hresult'
    ((mem_keys_result hgrouped hrun' hresult').mpr hwanted) (hroute language hwanted.2)
  rw [hsame, hprogress, Progress.answered.injEq] at hprogress'
  rw [htext, htext', hprogress']

/-- A session that translates into French and Hindi. -/
def frenchAndHindi : Except String RoutingMtAdapter :=
  RoutingMtAdapter.new (fun _ _ languages => .ok ⟨fun _ target => decide (target ∈ languages)⟩) "en" ["fr", "hi"] none

/-- NLLB dies while Opus is still at work. -/
def withoutNllb : List Turn :=
  [.call "opus-mt", .call "nllb-200", .answer "nllb-200" none,
    .answer "opus-mt" (some (ofKeys (fun _ => "bonjour.") ["fr"]))]

theorem withoutNllb_evaluated :
    (frenchAndHindi.toOption.bind fun r =>
      (r.fanOut "en" ["fr", "hi", "xx"]).toOption.bind fun grouped =>
        ((gather r "hello." "en" grouped).run withoutNllb).bind fun g =>
          (g.result grouped).map fun merged => (merged.entries, g.calls)) =
      some ([("fr", "bonjour."), ("hi", "")],
        [⟨"opus-mt", "hello.", "en", ["fr"]⟩, ⟨"nllb-200", "hello.", "en", ["hi"]⟩]) := by
  decide +kernel

theorem a_failing_backend_blanks_its_own_languages_without_nllb :
    ∃ r grouped g merged, frenchAndHindi = .ok r ∧ r.fanOut "en" ["fr", "hi", "xx"] = .ok grouped ∧
      (gather r "hello." "en" grouped).run withoutNllb = some g ∧ g.result grouped = some merged ∧
      merged.entries = [("fr", "bonjour."), ("hi", "")] ∧
      ∀ language, language ∈ merged.keys ↔
        language ∈ ["fr", "hi", "xx"] ∧ r.supports "en" language = true := by
  obtain ⟨r, hr, h⟩ := Option.bind_eq_some_iff.mp withoutNllb_evaluated
  obtain ⟨grouped, hgrouped, h⟩ := Option.bind_eq_some_iff.mp h
  obtain ⟨g, hrun, h⟩ := Option.bind_eq_some_iff.mp h
  obtain ⟨merged, hresult, h⟩ := Option.map_eq_some_iff.mp h
  rw [toOption_eq_some] at hr hgrouped
  obtain ⟨grouped', hgrouped', hruns⟩ := a_failing_backend_blanks_its_own_languages _ _ _ _ r hr
    "hello." "en" ["fr", "hi", "xx"]
  rw [hgrouped] at hgrouped'
  cases hgrouped'
  exact ⟨r, grouped, g, merged, hr, hgrouped, hrun, hresult, (Prod.mk.inj h).1,
    ((hruns withoutNllb g hrun).2.2 merged hresult).1⟩
end lad_translate.mt_routing
