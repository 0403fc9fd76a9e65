-- Opus-MT (adapters/mt_opus.py): one model for each target language, or one for
-- a family of them, and a phrase that is fanned out to all. SentencePiece and
-- CTranslate2 are parameters. A path is the name of a directory under the model
-- root: a language code has no slash. Log lines are left out.
import LadTranslate.Fallible
import LadTranslate.OrderedDicts
import LadTranslate.Text

open fallible ordered_dicts

namespace lad_translate.mt_opus

open OrderedDict phrase_chunker

/-- The target languages of a family model: its directory, and the token that
selects the language. -/
def MULTILINGUAL : OrderedDict String (String × String) :=
  empty.setAll
    [("te", "en-dra", ">>tel<<"), ("ta", "en-dra", ">>tam<<"), ("ml", "en-dra", ">>mal<<"),
      ("kn", "en-dra", ">>kan<<")]

/-- What the code takes from Python's Unicode tables. -/
class Casing where
  isUpper : Char → Bool
  /-- Lowercase or titlecase. -/
  isLower : Char → Bool
  lower : Char → String

/-- A SentencePiece model. -/
structure SentencePiece where
  encode : String → List String
  decode : List String → String

/-- What a model directory holds. `translate_batch` gives the best hypothesis for
one sequence, a beam size and a length, or it raises. -/
structure Files where
  sp_source : SentencePiece
  sp_target : SentencePiece
  eos : String
  translate_batch : List String → Nat → Nat → Option (List String)

/-- The directories under the model root: whether `model.bin` is there, and what
the directory opens to. -/
structure ModelRoot where
  has_bin : String → Bool
  opened : String → Except String Files

/-- A loaded model, shared by every target it serves. -/
structure Model where
  path : String
  inter_threads : Nat
  files : Files

/-- One target language, and the model that serves it. -/
structure Pair where
  source : String
  target : String
  model : Model
  target_token : Option String

/-! ## Where a model lives -/

inductive LoadError
  | no_workers
  | no_model (missing : List String) (wanted : OrderedDict String String) (fetch : List String)
  | unreadable (path reason : String)

/-- A dedicated model wins over a family model. -/
def resolve (root : ModelRoot) (source target : String) : String × Option String :=
  let direct := source ++ "-" ++ target
  if root.has_bin direct then (direct, none)
  else
    match MULTILINGUAL.get? target with
    | some (directory, token) => (directory, some token)
    | none => (direct, none)

/-- The models and the pairs so far, and the directories that were opened with
their workers, in order. -/
structure Loading where
  models : OrderedDict String Model
  pairs : OrderedDict String Pair
  opened : List (String × Nat)

/-- One turn of the loop of `_load`. -/
def Loading.turn (root : ModelRoot) (source : String) (sharers : OrderedDict String Nat)
    (loading : Loading) (entry : String × String × Option String) : Except LoadError Loading := do
  let (target, path, token) := entry
  match loading.models.get? path with
  | some model => return { loading with pairs := loading.pairs.set target ⟨source, target, model, token⟩ }
  | none =>
    let files ← (root.opened path).mapError (.unreadable path)
    let model : Model := ⟨path, max 1 ((sharers.get? path).getD 0), files⟩
    return {
      models := loading.models.set path model
      pairs := loading.pairs.set target ⟨source, target, model, token⟩
      opened := loading.opened ++ [(path, model.inter_threads)] }

/-- The targets with no model where it should be. -/
def missingOf (root : ModelRoot) (source : String) (targets : List String) : List String :=
  ((ofKeys (resolve root source) targets).entries.filter fun p => ! root.has_bin p.2.1).map Prod.fst

def load (root : ModelRoot) (source : String) (targets : List String) :
    Except LoadError Loading :=
  let resolved := ofKeys (resolve root source) targets
  let missing := missingOf root source targets
  if missing ≠ [] then
    let wanted := ofKeys (fun t => (resolve root source t).1) missing
    throw (.no_model missing wanted ((wanted.entries.map Prod.snd).dedup.mergeSort))
  else
    let sharers := tally (resolved.entries.map fun p => p.2.1)
    resolved.entries.foldlM (Loading.turn root source sharers) ⟨empty, empty, []⟩

/-! ## What is loaded -/

variable {root : ModelRoot} {source : String} {targets : List String} {loading : Loading}

/-- The targets that a directory is to serve. -/
def servedBy (root : ModelRoot) (source : String) (targets : List String) (path : String) : Finset String :=
  targets.toFinset.filter fun target => (resolve root source target).1 = path

/-- The loop, after some of the targets. -/
structure Loaded (root : ModelRoot) (source : String) (sharers : OrderedDict String Nat)
    (done : List String) (loading : Loading) : Prop where
  opened : loading.opened = loading.models.entries.map fun p => (p.1, p.2.inter_threads)
  mem : ∀ path, path ∈ loading.models.keys ↔ ∃ target ∈ done, (resolve root source target).1 = path
  model : ∀ path model, loading.models.get? path = some model →
    model.path = path ∧ root.opened path = .ok model.files ∧
      model.inter_threads = max 1 ((sharers.get? path).getD 0)
  pairs : ∀ target pair, loading.pairs.get? target = some pair ↔ target ∈ done ∧
    ∃ model, loading.models.get? (resolve root source target).1 = some model ∧
      pair = ⟨source, target, model, (resolve root source target).2⟩

/-- A pair for a target whose model is there. -/
theorem pairs_set {done : List String} {models models' : OrderedDict String Model}
    {pairs : OrderedDict String Pair} {target : String} {model : Model}
    (hmodel : models'.get? (resolve root source target).1 = some model)
    (hmore : ∀ path found, models.get? path = some found → models'.get? path = some found)
    (hold : ∀ t ∈ done, models.get? (resolve root source t).1 = none →
      models'.get? (resolve root source t).1 = none)
    (h : ∀ t pair, pairs.get? t = some pair ↔ t ∈ done ∧
      ∃ model, models.get? (resolve root source t).1 = some model ∧
        pair = ⟨source, t, model, (resolve root source t).2⟩) (t : String) (pair : Pair) :
    (pairs.set target ⟨source, target, model, (resolve root source target).2⟩).get? t = some pair ↔
      t ∈ done ++ [target] ∧ ∃ model, models'.get? (resolve root source t).1 = some model ∧
        pair = ⟨source, t, model, (resolve root source t).2⟩ := by
  rw [get?_set]
  by_cases ht : t = target
  · subst ht
    simp [hmodel, eq_comm]
  · rw [if_neg ht, h, List.mem_append, List.mem_singleton, or_iff_left ht]
    refine and_congr_right fun hdone => exists_congr fun found => and_congr_left fun _ => ?_
    refine ⟨hmore _ _, fun hfound => ?_⟩
    cases hmodels : models.get? (resolve root source t).1 with
    | none => rw [hold t hdone hmodels] at hfound; cases hfound
    | some other => rw [← hfound, hmore _ _ hmodels]

/-- A turn opens a directory that no target before it had, and no other. -/
theorem loaded_turn {sharers : OrderedDict String Nat} {done : List String} {target : String}
    {loading' : Loading} (h : Loaded root source sharers done loading)
    (hturn : loading.turn root source sharers (target, resolve root source target) = .ok loading') :
    Loaded root source sharers (done ++ [target]) loading' := by
  unfold Loading.turn at hturn
  simp only at hturn
  split at hturn
  · rename_i model hmodel
    cases hturn
    refine ⟨h.opened, ?_, h.model, pairs_set hmodel (fun _ _ h => h) (fun _ _ h => h) h.pairs⟩
    intro path
    rw [h.mem]
    constructor
    · rintro ⟨t, ht, hpath⟩
      exact ⟨t, List.mem_append_left _ ht, hpath⟩
    · rintro ⟨t, ht, hpath⟩
      rcases List.mem_append.mp ht with ht | ht
      · exact ⟨t, ht, hpath⟩
      · rw [List.mem_singleton.mp ht] at hpath
        exact (h.mem path).mp (mem_keys.mpr ⟨model, hpath ▸ hmodel⟩)
  · rename_i hnone
    obtain ⟨files, hfiles, hturn⟩ := bind_eq_ok.mp hturn
    rw [mapError_eq_ok] at hfiles
    cases hturn
    have hget := get?_set loading.models (resolve root source target).1
    refine ⟨?_, ?_, ?_, pairs_set ?_ ?_ ?_ h.pairs⟩
    · simp only
      rw [entries_set_of_none hnone, List.map_append, h.opened]
      rfl
    · intro path
      rw [mem_keys]
      simp only [hget]
      by_cases hpath : path = (resolve root source target).1
      · rw [if_pos hpath]
        exact ⟨fun _ => ⟨target, by simp, hpath.symm⟩, fun _ => ⟨_, rfl⟩⟩
      · rw [if_neg hpath, ← mem_keys, h.mem]
        simp [Ne.symm hpath]
    · intro path model hmodel
      simp only [hget] at hmodel
      split at hmodel
      · rename_i hpath
        cases hmodel
        subst hpath
        exact ⟨rfl, hfiles, rfl⟩
      · exact h.model path model hmodel
    · rw [hget, if_pos rfl]
    · intro path found hfound
      rw [hget, if_neg, hfound]
      rintro rfl
      rw [hnone] at hfound
      cases hfound
    · -- the model of a target that is done is there
      intro t ht habsent
      exact absurd ((h.mem _).mpr ⟨t, ht, rfl⟩) (get?_eq_none.mp habsent)

/-- The targets of a dictionary of targets, in its order. -/
abbrev distinct (root : ModelRoot) (source : String) (targets : List String) : List String :=
  (ofKeys (resolve root source) targets).keys

theorem mem_missingOf {target : String} : target ∈ missingOf root source targets ↔
    target ∈ targets ∧ root.has_bin (resolve root source target).1 = false := by
  unfold missingOf
  rw [entries_ofKeys, List.filter_map, List.map_map, List.mem_map]
  simp [mem_keys_ofKeys]

theorem load_ok (h : load root source targets = .ok loading) :
    (∀ target ∈ targets, root.has_bin (resolve root source target).1 = true) ∧
      Loaded root source (tally ((distinct root source targets).map fun t => (resolve root source t).1))
        (distinct root source targets) loading := by
  unfold load at h
  simp only at h
  split at h
  · cases h
  rename_i hmissing
  have hpaths : (ofKeys (resolve root source) targets).entries.map (fun p => p.2.1) =
      (distinct root source targets).map fun t => (resolve root source t).1 := by
    rw [entries_ofKeys, List.map_map]
    rfl
  rw [hpaths, entries_ofKeys, List.foldlM_map] at h
  constructor
  · intro target htarget
    by_contra hbin
    exact hmissing (List.ne_nil_of_mem (mem_missingOf.mpr ⟨htarget, Bool.eq_false_iff.mpr hbin⟩))
  · refine foldlM_induction (P := Loaded root source _) ?_ ?_ h
    · intro done loading target loading' hloaded hturn
      exact loaded_turn hloaded hturn
    · constructor
      · rfl
      · intro path
        simp [keys, empty]
      · intro path model hmodel
        cases hmodel
      · intro target pair
        simp

/-- The targets of a directory, counted. -/
theorem count_distinct (path : String) :
    ((distinct root source targets).map fun t => (resolve root source t).1).count path =
      (servedBy root source targets path).card := by
  have hperm := keys_ofKeys_perm (resolve root source) targets
  rw [(hperm.map _).count_eq, servedBy, List.count, List.countP_map, List.countP_eq_length_filter]
  rw [← List.toFinset_card_of_nodup ((List.nodup_dedup targets).filter _), List.toFinset_filter]
  congr 1
  ext target
  simp

section

variable (hload : load root source targets = .ok loading)

include hload

/-- A model has a worker for each of its targets. -/
theorem workers_of_load {path : String} {model : Model}
    (hmodel : loading.models.get? path = some model) :
    model.inter_threads = (servedBy root source targets path).card ∧
      0 < (servedBy root source targets path).card := by
  have hloaded := (load_ok hload).2
  obtain ⟨target, htarget, hpath⟩ := (hloaded.mem path).mp (mem_keys.mpr ⟨model, hmodel⟩)
  have hmem : path ∈ (distinct root source targets).map fun t => (resolve root source t).1 :=
    List.mem_map.mpr ⟨target, htarget, hpath⟩
  have hpos := List.count_pos_iff.mpr hmem
  rw [count_distinct] at hpos
  rw [(hloaded.model path model hmodel).2.2, get?_tally, if_pos hmem, count_distinct, Option.getD_some]
  exact ⟨max_eq_right hpos, hpos⟩

/-- Each target has one worker of its own. -/
theorem sum_workers : (loading.opened.map Prod.snd).sum = targets.toFinset.card := by
  have hloaded := (load_ok hload).2
  have hworkers : loading.opened.map Prod.snd = loading.models.keys.map fun path =>
      ((distinct root source targets).map fun t => (resolve root source t).1).count path := by
    rw [hloaded.opened, keys, List.map_map, List.map_map]
    apply List.map_congr_left
    intro p hp
    have hmodel : loading.models.get? p.1 = some p.2 := get?_eq_some.mpr hp
    exact (workers_of_load hload hmodel).1.trans (count_distinct p.1).symm
  have hkeys : loading.models.keys.Perm
      (((distinct root source targets).map fun t => (resolve root source t).1).dedup) := by
    apply (List.perm_ext_iff_of_nodup loading.models.keys_nodup (List.nodup_dedup _)).mpr
    intro path
    rw [hloaded.mem, List.mem_dedup, List.mem_map]
  rw [hworkers, (hkeys.map _).sum_eq, List.sum_map_count_dedup_eq_length, List.length_map,
    (keys_ofKeys_perm _ _).length_eq, List.card_toFinset]

end

/-- A session starts when every target has a model. Each model directory is
opened once, with a worker for each of the targets that it serves, and each
target has the model of its own directory. -/
theorem each_model_is_opened_once_for_its_targets (root : ModelRoot) (source : String)
    (targets : List String) (loading : Loading) (h : load root source targets = .ok loading) :
    (loading.opened.map Prod.fst).Nodup ∧
    (∀ path workers, (path, workers) ∈ loading.opened ↔
      workers = (servedBy root source targets path).card ∧ 0 < workers) ∧
    (loading.opened.map Prod.snd).sum = targets.toFinset.card ∧
    ∀ target pair, loading.pairs.get? target = some pair ↔ target ∈ targets ∧
      ∃ files, root.has_bin (resolve root source target).1 = true ∧
        root.opened (resolve root source target).1 = .ok files ∧
        pair = ⟨source, target, ⟨(resolve root source target).1,
          (servedBy root source targets (resolve root source target).1).card, files⟩,
          (resolve root source target).2⟩ := by
  obtain ⟨hbins, hloaded⟩ := load_ok h
  have hthere : ∀ path, 0 < (servedBy root source targets path).card →
      ∃ model, loading.models.get? path = some model := by
    intro path hpos
    obtain ⟨target, htarget⟩ := Finset.card_pos.mp hpos
    obtain ⟨htarget, hpath⟩ := Finset.mem_filter.mp htarget
    apply mem_keys.mp
    rw [hloaded.mem]
    exact ⟨target, mem_keys_ofKeys.mpr (List.mem_toFinset.mp htarget), hpath⟩
  refine ⟨?_, ?_, sum_workers h, ?_⟩
  · rw [hloaded.opened, List.map_map]
    exact loading.models.nodup
  · intro path workers
    rw [hloaded.opened, List.mem_map]
    constructor
    · rintro ⟨⟨path', model⟩, hmem, heq⟩
      cases heq
      have hworkers := workers_of_load h (get?_eq_some.mpr hmem)
      exact ⟨hworkers.1, hworkers.1 ▸ hworkers.2⟩
    · rintro ⟨rfl, hpos⟩
      obtain ⟨model, hmodel⟩ := hthere path hpos
      exact ⟨(path, model), get?_eq_some.mp hmodel, by rw [(workers_of_load h hmodel).1]⟩
  · intro target pair
    rw [hloaded.pairs, mem_keys_ofKeys]
    refine and_congr_right fun htarget => ?_
    constructor
    · rintro ⟨model, hmodel, rfl⟩
      obtain ⟨hpath, hfiles, -⟩ := hloaded.model _ _ hmodel
      have hworkers := (workers_of_load h hmodel).1
      refine ⟨model.files, hbins target htarget, hfiles, ?_⟩
      cases model
      simp only at hpath hworkers
      rw [hpath, hworkers]
    · rintro ⟨files, -, hfiles, rfl⟩
      have hpos : 0 < (servedBy root source targets (resolve root source target).1).card :=
        Finset.card_pos.mpr ⟨target, Finset.mem_filter.mpr ⟨List.mem_toFinset.mpr htarget, rfl⟩⟩
      obtain ⟨model, hmodel⟩ := hthere _ hpos
      obtain ⟨hpath, hfiles', -⟩ := hloaded.model _ _ hmodel
      have hworkers := (workers_of_load h hmodel).1
      rw [hfiles, Except.ok.injEq] at hfiles'
      refine ⟨model, hmodel, ?_⟩
      cases model
      simp only at hpath hworkers hfiles'
      rw [hpath, hworkers, hfiles']

/-- French has a model of its own, and two languages share one. -/
def threeLanguages : ModelRoot where
  has_bin path := decide (path ∈ ["en-fr", "en-dra"])
  opened _ := .ok {
    sp_source := ⟨tokenise, joinTokens⟩
    sp_target := ⟨tokenise, joinTokens⟩
    eos := "</s>"
    translate_batch := fun tokens _ _ =>
      if tokens = ["hello.", "</s>"] then some ["bonjour."] else none }

theorem threeLanguages_opened :
    (load threeLanguages "en" ["te", "fr", "ta", "te"]).toOption.map (·.opened) =
      some [("en-dra", 2), ("en-fr", 1)] := by
  decide +kernel

theorem each_model_is_opened_once_for_three_languages :
    ∃ loading, load threeLanguages "en" ["te", "fr", "ta", "te"] = .ok loading ∧
      loading.opened = [("en-dra", 2), ("en-fr", 1)] ∧
      (loading.opened.map Prod.snd).sum = ["te", "fr", "ta", "te"].toFinset.card := by
  obtain ⟨loading, hload, hopened⟩ := Option.map_eq_some_iff.mp threeLanguages_opened
  rw [toOption_eq_some] at hload
  exact ⟨loading, hload, hopened,
    (each_model_is_opened_once_for_its_targets _ _ _ loading hload).2.2.1⟩

/-- The loading comes to its end when every target has a model that opens. -/
theorem load_iff : (∃ loading, load root source targets = .ok loading) ↔ ∀ target ∈ targets,
    root.has_bin (resolve root source target).1 = true ∧
      ∃ files, root.opened (resolve root source target).1 = .ok files := by
  constructor
  · rintro ⟨loading, h⟩ target htarget
    obtain ⟨hbins, hloaded⟩ := load_ok h
    refine ⟨hbins target htarget, ?_⟩
    obtain ⟨model, hmodel⟩ := mem_keys.mp
      ((hloaded.mem _).mpr ⟨target, mem_keys_ofKeys.mpr htarget, rfl⟩)
    exact ⟨model.files, (hloaded.model _ _ hmodel).2.1⟩
  · intro h
    have hmissing : missingOf root source targets = [] := by
      apply List.eq_nil_iff_forall_not_mem.mpr
      intro target hmem
      obtain ⟨htarget, hbin⟩ := mem_missingOf.mp hmem
      rw [(h target htarget).1] at hbin
      cases hbin
    unfold load
    simp only [hmissing, ne_eq, not_true, if_false]
    apply foldlM_ok
    rw [entries_ofKeys]
    intro entry hentry loading
    obtain ⟨target, htarget, rfl⟩ := List.mem_map.mp hentry
    obtain ⟨-, files, hfiles⟩ := h target (mem_keys_ofKeys.mp htarget)
    unfold Loading.turn
    simp only [hfiles]
    split
    · exact ⟨_, rfl⟩
    · exact ⟨_, rfl⟩

/-! ## The adapter -/

structure OpusMtAdapter where
  source_language : String
  beam_size : Nat
  max_output_ratio : ℚ
  max_workers : Nat
  pairs : OrderedDict String Pair

def OpusMtAdapter.new (root : ModelRoot) (source_language : String) (targets : List String)
    (beam_size : Nat) (max_output_ratio : ℚ) : Except LoadError OpusMtAdapter := do
  -- a thread pool with no thread is a `ValueError`
  if targets = [] then throw .no_workers
  let loading ← load root source_language targets
  return { source_language, beam_size, max_output_ratio, max_workers := targets.length,
           pairs := loading.pairs }

def OpusMtAdapter.supports (a : OpusMtAdapter) (source target : String) : Bool :=
  decide (source = a.source_language ∧ target ∈ a.pairs.keys)

theorem new_ok {beam_size : Nat} {max_output_ratio : ℚ} {a : OpusMtAdapter}
    (h : OpusMtAdapter.new root source targets beam_size max_output_ratio = .ok a) :
    ∃ loading, load root source targets = .ok loading ∧
      a = ⟨source, beam_size, max_output_ratio, targets.length, loading.pairs⟩ := by
  unfold OpusMtAdapter.new at h
  split at h
  · cases h
  · obtain ⟨loading, hload, h⟩ := bind_eq_ok.mp h
    cases h
    exact ⟨loading, hload, rfl⟩

theorem new_iff {beam_size : Nat} {max_output_ratio : ℚ} :
    (∃ a, OpusMtAdapter.new root source targets beam_size max_output_ratio = .ok a) ↔
      targets ≠ [] ∧ ∃ loading, load root source targets = .ok loading := by
  constructor
  · rintro ⟨a, h⟩
    obtain ⟨loading, hload, -⟩ := new_ok h
    refine ⟨?_, loading, hload⟩
    rintro rfl
    cases h
  · rintro ⟨hsome, loading, hload⟩
    unfold OpusMtAdapter.new
    rw [if_neg hsome, hload]
    exact ⟨_, rfl⟩

/-- The adapter serves the targets that it was built for. -/
theorem supports_new {beam_size : Nat} {max_output_ratio : ℚ} {a : OpusMtAdapter}
    (h : OpusMtAdapter.new root source targets beam_size max_output_ratio = .ok a)
    (source' target : String) : a.supports source' target = true ↔ source' = source ∧ target ∈ targets := by
  obtain ⟨loading, hload, rfl⟩ := new_ok h
  rw [OpusMtAdapter.supports, decide_eq_true_iff]
  refine and_congr_right fun _ => ?_
  have hloaded := (load_ok hload).2
  rw [mem_keys]
  constructor
  · rintro ⟨pair, hpair⟩
    exact mem_keys_ofKeys.mp ((hloaded.pairs target pair).mp hpair).1
  · intro htarget
    have hthere : target ∈ distinct root source targets := mem_keys_ofKeys.mpr htarget
    obtain ⟨model, hmodel⟩ := mem_keys.mp ((hloaded.mem _).mpr ⟨target, hthere, rfl⟩)
    exact ⟨_, (hloaded.pairs target _).mpr ⟨hthere, model, hmodel, rfl⟩⟩

section

variable [Casing]

def isupper (s : String) : Bool :=
  s.toList.any Casing.isUpper && ! s.toList.any Casing.isLower

/-- `text.split(maxsplit=1)`: the first word, and what comes after it. -/
def splitFirst (text : String) : Option (String × Option String) :=
  let body := text.toList.dropWhile isSpace
  let rest := (body.dropWhile (! isSpace ·)).dropWhile isSpace
  if body = [] then none
  else some (String.ofList (body.takeWhile (! isSpace ·)),
    if rest = [] then none else some (String.ofList rest))

/-- `first[:1].lower() + first[1:]`. -/
def lowerFirst (first : String) : String :=
  match first.toList with
  | [] => ""
  | c :: rest => Casing.lower c ++ String.ofList rest

/-- Lowercase the first word when capitalising it breaks tokenisation. -/
def fixLeadingCase (sp : SentencePiece) (text : String) : String :=
  match splitFirst text with
  | none => text
  | some (first, rest) =>
    if isupper first then text
    else
      let lowered := lowerFirst first
      if lowered = first then text
      else if (sp.encode first).length < 2 then text
      else if (sp.encode lowered).length ≠ 1 then text
      else
        match rest with
        | none => lowered
        | some rest => lowered ++ " " ++ rest

namespace Pair

/-- The sequence that the model is given: the selector, the pieces of the text,
and the end of the sequence. -/
def tokens (pair : Pair) (text : String) : List String :=
  let pieces := pair.model.files.sp_source.encode (fixLeadingCase pair.model.files.sp_source text)
  (pair.target_token.filter (· ≠ "")).toList ++ pieces ++ [pair.model.files.eos]

/-- The bound on the output. -/
def maxLen (tokens : List String) (max_output_ratio : ℚ) : Nat :=
  max 32 ⌊tokens.length * max_output_ratio⌋.toNat

/-- The text for the pair, or nothing when the model raises. -/
def translate (pair : Pair) (text : String) (beam_size : Nat) (max_output_ratio : ℚ) :
    Option String :=
  let tokens := pair.tokens text
  (pair.model.files.translate_batch tokens beam_size (maxLen tokens max_output_ratio)).map
    pair.model.files.sp_target.decode

end Pair

/-! ## The selectors -/

omit [Casing] in
/-- What `_resolve` gives: the directory of the pair, or that of a family and a
selector of the table. -/
theorem resolve_cases (root : ModelRoot) (source target : String) :
    resolve root source target = (source ++ "-" ++ target, none) ∨
      ∃ directory token, MULTILINGUAL.get? target = some (directory, token) ∧
        resolve root source target = (directory, some token) := by
  unfold resolve
  simp only
  split
  · exact .inl rfl
  · split
    · rename_i directory token hfamily
      exact .inr ⟨directory, token, hfamily, rfl⟩
    · exact .inl rfl

omit [Casing] in
/-- A selector names its language. -/
theorem selector_injective {target target' : String} {family family' : String × String}
    (h : MULTILINGUAL.get? target = some family) (h' : MULTILINGUAL.get? target' = some family')
    (htoken : family.2 = family'.2) : target = target' := by
  have hsame : ∀ p ∈ MULTILINGUAL.entries, ∀ q ∈ MULTILINGUAL.entries, p.2.2 = q.2.2 → p.1 = q.1 := by
    decide +kernel
  exact hsame _ (get?_eq_some.mp h) _ (get?_eq_some.mp h') htoken

omit [Casing] in
theorem selector_ne_empty {target : String} {family : String × String}
    (h : MULTILINGUAL.get? target = some family) : family.2 ≠ "" := by
  have hsome : ∀ p ∈ MULTILINGUAL.entries, p.2.2 ≠ "" := by decide +kernel
  exact hsome _ (get?_eq_some.mp h)

omit [Casing] in
/-- The directory and the selector together name the target. -/
theorem resolve_injective {root : ModelRoot} {source target target' : String}
    (h : resolve root source target = resolve root source target') : target = target' := by
  rcases resolve_cases root source target with h₁ | ⟨directory, token, hfamily, h₁⟩ <;>
    rcases resolve_cases root source target' with h₂ | ⟨directory', token', hfamily', h₂⟩ <;>
    rw [h₁, h₂, Prod.mk.injEq] at h
  · exact (String.append_right_inj _).mp h.1
  · cases h.2
  · cases h.2
  · exact selector_injective hfamily hfamily' (Option.some.inj h.2)

/-- The selector of a target leads the sequence whole, the end comes last, and
what is between them is the same for all that share a model. -/
theorem the_targets_of_a_model_are_told_apart (root : ModelRoot) (source : String)
    (targets : List String) (loading : Loading) (h : load root source targets = .ok loading)
    (target target' : String) (pair pair' : Pair) (hpair : loading.pairs.get? target = some pair)
    (hpair' : loading.pairs.get? target' = some pair') (hpath : pair.model.path = pair'.model.path)
    (text : String) :
    ∃ pieces,
      pair.tokens text = pair.target_token.toList ++ pieces ++ [pair.model.files.eos] ∧
      pair'.tokens text = pair'.target_token.toList ++ pieces ++ [pair.model.files.eos] ∧
      (pair.tokens text = pair'.tokens text ↔ target = target') := by
  have hshape : ∀ t p, loading.pairs.get? t = some p → resolve root source t =
      (p.model.path, p.target_token) ∧ p.target_token.filter (· ≠ "") = p.target_token ∧
      root.opened p.model.path = .ok p.model.files := by
    intro t p hp
    obtain ⟨-, model, hmodel, rfl⟩ := ((load_ok h).2.pairs t p).mp hp
    obtain ⟨hmodelpath, hfiles, -⟩ := (load_ok h).2.model _ _ hmodel
    refine ⟨Prod.ext hmodelpath.symm rfl, ?_, hmodelpath ▸ hfiles⟩
    simp only
    rcases resolve_cases root source t with hdirect | ⟨directory, token, hfamily, hresolve⟩
    · rw [hdirect]
      rfl
    · rw [hresolve]
      simpa using selector_ne_empty hfamily
  obtain ⟨hresolve, htoken, hfiles⟩ := hshape target pair hpair
  obtain ⟨hresolve', htoken', hfiles'⟩ := hshape target' pair' hpair'
  have hsame : pair'.model.files = pair.model.files := by
    rw [← hpath, hfiles, Except.ok.injEq] at hfiles'
    exact hfiles'.symm
  have htokens : pair.tokens text = pair.target_token.toList ++
      pair.model.files.sp_source.encode (fixLeadingCase pair.model.files.sp_source text) ++
      [pair.model.files.eos] := by
    rw [Pair.tokens, htoken]
  have htokens' : pair'.tokens text = pair'.target_token.toList ++
      pair.model.files.sp_source.encode (fixLeadingCase pair.model.files.sp_source text) ++
      [pair.model.files.eos] := by
    rw [Pair.tokens, htoken', hsame]
  refine ⟨_, htokens, htokens', ?_⟩
  constructor
  · intro heq
    rw [htokens, htokens', List.append_cancel_right_eq, List.append_cancel_right_eq] at heq
    have hselector : pair.target_token = pair'.target_token := by
      rw [← Option.head?_toList (o := pair.target_token), heq, Option.head?_toList]
    exact resolve_injective (hresolve.trans (by rw [hpath, hselector, hresolve']))
  · rintro rfl
    rw [hpair, Option.some.injEq] at hpair'
    rw [hpair']

end

namespace ascii

/-- Tables that are right for ASCII text. -/
scoped instance casing : Casing where
  isUpper c := c.isUpper
  isLower c := c.isLower
  lower c := String.singleton c.toLower

end ascii

open ascii in
theorem the_two_languages_of_a_family_are_told_apart :
    ∃ loading te ta, load threeLanguages "en" ["te", "fr", "ta", "te"] = .ok loading ∧
      loading.pairs.get? "te" = some te ∧ loading.pairs.get? "ta" = some ta ∧
      ∃ pieces, te.tokens "hello." = te.target_token.toList ++ pieces ++ [te.model.files.eos] ∧
        ta.tokens "hello." = ta.target_token.toList ++ pieces ++ [te.model.files.eos] ∧
        te.tokens "hello." ≠ ta.tokens "hello." := by
  have hthere : ((load threeLanguages "en" ["te", "fr", "ta", "te"]).toOption.bind fun loading =>
      (loading.pairs.get? "te").bind fun te => (loading.pairs.get? "ta").map fun ta =>
        (te.model.path, ta.model.path)) = some ("en-dra", "en-dra") := by
    decide +kernel
  obtain ⟨loading, hload, h⟩ := Option.bind_eq_some_iff.mp hthere
  obtain ⟨te, hte, h⟩ := Option.bind_eq_some_iff.mp h
  obtain ⟨ta, hta, h⟩ := Option.map_eq_some_iff.mp h
  rw [toOption_eq_some] at hload
  obtain ⟨htepath, htapath⟩ := Prod.mk.inj h
  obtain ⟨pieces, htokens, htokens', hsame⟩ := the_targets_of_a_model_are_told_apart _ _ _ loading
    hload "te" "ta" te ta hte hta (htepath.trans htapath.symm) "hello."
  exact ⟨loading, te, ta, hload, hte, hta, pieces, htokens, htokens', mt hsame.mp (by decide)⟩

section

variable [Casing]

namespace OpusMtAdapter

def translateSync (a : OpusMtAdapter) (text target : String) : Option String :=
  (a.pairs.get? target).bind fun pair => pair.translate text a.beam_size a.max_output_ratio

/-- A task for each target that is served. One that raises gives a blank text. -/
def translateMany (a : OpusMtAdapter) (text source : String) (targets : List String) :
    OrderedDict String String :=
  ofKeys (fun target => (a.translateSync text target).getD "") (targets.filter (a.supports source))

theorem get?_translateMany (a : OpusMtAdapter) (text source : String) (targets : List String)
    (target : String) : (a.translateMany text source targets).get? target =
      if target ∈ targets ∧ a.supports source target = true then
        some ((a.translateSync text target).getD "") else none := by
  rw [translateMany, get?_ofKeys]
  simp only [List.mem_filter]

end OpusMtAdapter

end

end lad_translate.mt_opus
