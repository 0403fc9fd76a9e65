-- NLLB-200 (adapters/mt_nllb.py): one model for every language, and a phrase that
-- is fanned out in one batch. The tokeniser and CTranslate2 are parameters. Log
-- lines, the device and its threads are left out.
import LadTranslate.Fallible
import LadTranslate.OrderedDicts
import LadTranslate.Text

open fallible ordered_dicts

namespace lad_translate.mt_nllb

open OrderedDict phrase_chunker

/-- BCP-47 to FLORES-200: a language and its script. -/
def FLORES : OrderedDict String String :=
  empty.setAll
    [("ar", "arb_Arab"), ("bn", "ben_Beng"), ("de", "deu_Latn"), ("en", "eng_Latn"),
      ("es", "spa_Latn"), ("fa", "pes_Arab"), ("fr", "fra_Latn"), ("he", "heb_Hebr"),
      ("hi", "hin_Deva"), ("id", "ind_Latn"), ("it", "ita_Latn"), ("ja", "jpn_Jpan"),
      ("kn", "kan_Knda"), ("ko", "kor_Hang"), ("ml", "mal_Mlym"), ("mr", "mar_Deva"),
      ("nl", "nld_Latn"), ("pt", "por_Latn"), ("ru", "rus_Cyrl"), ("ta", "tam_Taml"),
      ("te", "tel_Telu"), ("tr", "tur_Latn"), ("ur", "urd_Arab"), ("vi", "vie_Latn"),
      ("zh", "zho_Hans")]

/-- `tokenizer.json`. -/
structure Tokenizer where
  encode : String → List String
  vocab : String → Option Nat
  decode : List Nat → String

/-- What the model directory holds. `translate_batch` gives the best hypothesis for
each sequence and its prefix, or it raises. -/
structure Files where
  tokenizer : Tokenizer
  translate_batch : List (List String) → List (List String) → Nat → Nat → Option (List (List String))

/-- Whether `model.bin` is at the model path, and what the path opens to. -/
structure ModelPath where
  has_bin : Bool
  opened : Except String Files

inductive LoadError
  | no_model
  | unknown (languages : List String)
  | unreadable (reason : String)

structure NllbMtAdapter where
  source_language : String
  beam_size : Nat
  max_output_ratio : ℚ
  source_code : String
  targets : OrderedDict String String
  files : Files

namespace NllbMtAdapter

def new (path : ModelPath) (source_language : String) (targets : List String) (beam_size : Nat)
    (max_output_ratio : ℚ) : Except LoadError NllbMtAdapter := do
  if path.has_bin = false then throw .no_model
  else
    match FLORES.get? source_language,
      (source_language :: targets).filter fun t => decide (t ∉ FLORES.keys) with
    | some source_code, [] =>
      let files ← path.opened.mapError .unreadable
      return { source_language, beam_size, max_output_ratio, source_code, files,
               targets := ofKeys (fun t => (FLORES.get? t).getD "") targets }
    | _, unknown => throw (.unknown unknown)

def supports (a : NllbMtAdapter) (source target : String) : Bool :=
  decide (source = a.source_language ∧ target ∈ a.targets.keys)

/-- The source language, the text, and the end of the sentence. -/
def encode (a : NllbMtAdapter) (text : String) : List String :=
  let body := (a.files.tokenizer.encode text).filter fun t => decide (t ∉ ["<s>", "</s>"])
  a.source_code :: body ++ ["</s>"]

/-- The target code, and what the vocabulary does not have, are left out. -/
def decode (a : NllbMtAdapter) (hypothesis : List String) (target_code : String) : String :=
  a.files.tokenizer.decode <| hypothesis.filterMap fun t =>
    if t = target_code then none else a.files.tokenizer.vocab t

/-- The bound on the output. -/
def maxLen (source : List String) (max_output_ratio : ℚ) : Nat :=
  max 32 ⌊source.length * max_output_ratio⌋.toNat

def codeOf (a : NllbMtAdapter) (target : String) : String := (a.targets.get? target).getD ""

def translateSync (a : NllbMtAdapter) (text : String) (targets : List String) :
    OrderedDict String String :=
  let source := a.encode text
  let codes := targets.map a.codeOf
  match a.files.translate_batch (List.replicate codes.length source) (codes.map fun code => [code])
    a.beam_size (maxLen source a.max_output_ratio) with
  | none => ofKeys (fun _ => "") targets
  | some results =>
    empty.setAll ((targets.zip (codes.zip results)).map fun (target, code, result) =>
      (target, a.decode result code))

def translateMany (a : NllbMtAdapter) (text source : String) (targets : List String) :
    OrderedDict String String :=
  let wanted := targets.filter (a.supports source)
  if wanted = [] ∨ strip text = "" then ofKeys (fun _ => "") wanted
  else a.translateSync text wanted

/-- `translate`: a batch of one. -/
def translate (a : NllbMtAdapter) (text source target : String) : String :=
  ((a.translateMany text source [target]).get? target).getD ""

end NllbMtAdapter

theorem new_ok {path : ModelPath} {source : String} {targets : List String} {beam_size : Nat}
    {max_output_ratio : ℚ} {a : NllbMtAdapter}
    (h : NllbMtAdapter.new path source targets beam_size max_output_ratio = .ok a) :
    path.opened = .ok a.files ∧ a.source_language = source ∧
      a.targets = ofKeys (fun t => (FLORES.get? t).getD "") targets := by
  unfold NllbMtAdapter.new at h
  split at h
  · cases h
  · split at h
    · obtain ⟨files, hfiles, h⟩ := bind_eq_ok.mp h
      cases h
      exact ⟨mapError_eq_ok.mp hfiles, rfl, rfl⟩
    · cases h

theorem new_iff {path : ModelPath} {source : String} {targets : List String} {beam_size : Nat}
    {max_output_ratio : ℚ} :
    (∃ a, NllbMtAdapter.new path source targets beam_size max_output_ratio = .ok a) ↔
      path.has_bin = true ∧ (∀ t ∈ source :: targets, t ∈ FLORES.keys) ∧
        ∃ files, path.opened = .ok files := by
  have hnone : ((source :: targets).filter fun t => decide (t ∉ FLORES.keys)) = [] ↔
      ∀ t ∈ source :: targets, t ∈ FLORES.keys := by
    simp [List.filter_eq_nil_iff]
  constructor
  · rintro ⟨a, h⟩
    have hfiles := (new_ok h).1
    unfold NllbMtAdapter.new at h
    split at h
    · cases h
    · rename_i hbin
      split at h
      · rename_i hknown
        exact ⟨by simpa using hbin, hnone.mp hknown, _, hfiles⟩
      · cases h
  · rintro ⟨hbin, hknown, files, hfiles⟩
    obtain ⟨source_code, hcode⟩ := mem_keys.mp (hknown source List.mem_cons_self)
    unfold NllbMtAdapter.new
    rw [if_neg (by simp [hbin])]
    simp only [hcode, hnone.mpr hknown, hfiles]
    exact ⟨_, rfl⟩

/-- The adapter serves the targets that it was built for. -/
theorem supports_new {path : ModelPath} {source : String} {targets : List String} {beam_size : Nat}
    {max_output_ratio : ℚ} {a : NllbMtAdapter}
    (h : NllbMtAdapter.new path source targets beam_size max_output_ratio = .ok a)
    (source' target : String) : a.supports source' target = true ↔ source' = source ∧ target ∈ targets := by
  obtain ⟨-, hsource, htargets⟩ := new_ok h
  rw [NllbMtAdapter.supports, decide_eq_true_iff, hsource, htargets, mem_keys_ofKeys]

/-! ## A batch is its parts -/

/-- The translator takes each sequence by itself, and it raises when one of them
does. -/
def Itemwise (files : Files) (alone : List String → List String → Nat → Nat → Option (List String)) :
    Prop :=
  ∀ sources prefixes beam_size max_len, sources.length = prefixes.length →
    files.translate_batch sources prefixes beam_size max_len =
      (sources.zip prefixes).mapM fun p => alone p.1 p.2 beam_size max_len

variable {a : NllbMtAdapter} {alone : List String → List String → Nat → Nat → Option (List String)}
  {text source : String} {targets : List String}

/-- What the translator gives for one target by itself. -/
def NllbMtAdapter.aloneFor (a : NllbMtAdapter)
    (alone : List String → List String → Nat → Nat → Option (List String)) (text target : String) :
    Option String :=
  (alone (a.encode text) [a.codeOf target] a.beam_size
    (NllbMtAdapter.maxLen (a.encode text) a.max_output_ratio)).map fun hypothesis =>
      a.decode hypothesis (a.codeOf target)

theorem zip_replicate_map {α β γ : Type*} (x : β) (g : α → γ) (l : List α) :
    (List.replicate l.length x).zip (l.map g) = l.map fun b => (x, g b) := by
  induction l with
  | nil => rfl
  | cons b l ih => rw [List.length_cons, List.replicate_succ, List.map_cons, List.zip_cons_cons, ih, List.map_cons]

/-- The results stand in the order of what they are for. -/
theorem zip_results {α β γ δ : Type*} {f : α → Option β} {g : α → γ} {d : β → γ → δ} (blank : δ)
    {l : List α} {results : List β} (h : l.map f = results.map some) :
    (l.zip ((l.map g).zip results)).map (fun (x, c, r) => (x, d r c)) =
      l.map fun x => (x, ((f x).map fun r => d r (g x)).getD blank) := by
  induction l generalizing results with
  | nil => rfl
  | cons x l ih =>
    cases results with
    | nil => cases h
    | cons r results =>
      obtain ⟨hx, hl⟩ := List.cons.inj h
      simp only [List.map_cons, List.zip_cons_cons, ih hl, hx, Option.map_some, Option.getD_some]

/-- A batch gives the text of each target, or a blank for all of them. -/
theorem translateSync_eq (h : Itemwise a.files alone) (text : String) (targets : List String) :
    a.translateSync text targets =
      if ∀ t ∈ targets, a.aloneFor alone text t ≠ none then
        ofKeys (fun t => (a.aloneFor alone text t).getD "") targets
      else ofKeys (fun _ => "") targets := by
  have hbatch : (a.files.translate_batch (List.replicate (targets.map a.codeOf).length (a.encode text))
      ((targets.map a.codeOf).map fun code => [code]) a.beam_size
      (NllbMtAdapter.maxLen (a.encode text) a.max_output_ratio)) =
      targets.mapM fun t => alone (a.encode text) [a.codeOf t] a.beam_size
        (NllbMtAdapter.maxLen (a.encode text) a.max_output_ratio) := by
    rw [h _ _ _ _ (by simp), zip_replicate_map, List.map_map, List.mapM_map]
    rfl
  unfold NllbMtAdapter.translateSync
  simp only [hbatch]
  split
  · rename_i hnone
    obtain ⟨t, ht, hfails⟩ := exists_of_mapM_eq_none hnone
    rw [if_neg]
    intro hall
    apply hall t ht
    unfold NllbMtAdapter.aloneFor
    rw [hfails, Option.map_none]
  · rename_i results hresults
    have hvalues := mapM_eq_some_iff.mp hresults
    rw [if_pos, zip_results "" hvalues, setAll, List.foldl_map]
    · rfl
    · intro t ht hfails
      obtain ⟨y, -, hy⟩ := (mem_of_mapM_eq_some hresults).1 t ht
      rw [NllbMtAdapter.aloneFor, hy] at hfails
      cases hfails

/-- Whether a batch is lost: it is sent, and one of its targets fails in it. -/
def NllbMtAdapter.Lost (a : NllbMtAdapter)
    (alone : List String → List String → Nat → Nat → Option (List String)) (text source : String)
    (targets : List String) : Prop :=
  ∃ target ∈ targets, a.supports source target = true ∧ a.aloneFor alone text target = none

instance : Decidable (a.Lost alone text source targets) :=
  inferInstanceAs (Decidable (∃ target ∈ targets, _))

theorem get?_translateMany (h : Itemwise a.files alone) (target : String) :
    (a.translateMany text source targets).get? target =
      if target ∈ targets.filter (a.supports source) then
        some (if strip text = "" then ""
          else if ∀ t ∈ targets.filter (a.supports source), a.aloneFor alone text t ≠ none then
            (a.aloneFor alone text target).getD ""
          else "")
      else none := by
  unfold NllbMtAdapter.translateMany
  simp only [translateSync_eq h]
  by_cases hsent : targets.filter (a.supports source) = [] ∨ strip text = ""
  · rw [if_pos hsent, get?_ofKeys]
    rcases hsent with hnone | hblank
    · simp [hnone]
    · rw [if_pos hblank]
  · rw [if_neg hsent, if_neg (fun hblank => hsent (.inr hblank))]
    split
    · rw [get?_ofKeys]
    · rw [get?_ofKeys]

theorem lost_iff : a.Lost alone text source targets ↔
    ¬ ∀ t ∈ targets.filter (a.supports source), a.aloneFor alone text t ≠ none := by
  unfold NllbMtAdapter.Lost
  simp

/-- A batch of one. -/
theorem translate_eq (h : Itemwise a.files alone) {target : String}
    (hsupports : a.supports source target = true) : a.translate text source target =
      if strip text = "" then "" else (a.aloneFor alone text target).getD "" := by
  rw [NllbMtAdapter.translate, get?_translateMany h, List.filter_cons_of_pos hsupports,
    List.filter_nil, if_pos (List.mem_singleton_self target), Option.getD_some]
  simp only [List.mem_singleton, forall_eq]
  cases a.aloneFor alone text target with
  | none => simp
  | some translated => simp

/-- The texts of a batch against those of single calls. -/
theorem batch_text (h : Itemwise a.files alone) {target : String}
    (hsupports : a.supports source target = true) :
    (if strip text = "" then ""
      else if ∀ t ∈ targets.filter (a.supports source), a.aloneFor alone text t ≠ none then
        (a.aloneFor alone text target).getD ""
      else "") = if a.Lost alone text source targets then "" else a.translate text source target := by
  rw [translate_eq h hsupports]
  by_cases hblank : strip text = ""
  · simp [hblank]
  · rw [if_neg hblank, if_neg hblank]
    simp only [lost_iff, ite_not]

/-- A phrase is sent to all its targets in one batch. It gives each of them what
it is given when it is translated by itself. When one of them fails, all are
blank. -/
theorem a_batch_agrees_with_single_calls (a : NllbMtAdapter)
    (alone : List String → List String → Nat → Nat → Option (List String))
    (h : Itemwise a.files alone) (text source : String) (targets : List String) (target : String) :
    (a.translateMany text source targets).get? target =
      if target ∈ targets ∧ a.supports source target = true then
        some (if a.Lost alone text source targets then "" else a.translate text source target)
      else none := by
  rw [get?_translateMany h]
  by_cases htarget : target ∈ targets ∧ a.supports source target = true
  · rw [if_pos (List.mem_filter.mpr htarget), if_pos htarget, batch_text h htarget.2]
  · rw [if_neg (mt List.mem_filter.mp htarget), if_neg htarget]

/-- A translator that knows one phrase in one language. -/
def hindiAlone (source hypothesis_prefix : List String) (_ _ : Nat) : Option (List String) :=
  if source = ["eng_Latn", "hello.", "</s>"] ∧ hypothesis_prefix = ["hin_Deva"] then
    some ["hin_Deva", "namaste."]
  else none

def hindiFiles : Files where
  tokenizer := ⟨tokenise, fun t => if t = "namaste." then some 7 else none,
    fun ids => if ids = [7] then "namaste." else ""⟩
  translate_batch sources prefixes beam_size max_len :=
    (sources.zip prefixes).mapM fun p => hindiAlone p.1 p.2 beam_size max_len

def hindi : NllbMtAdapter :=
  ⟨"en", 1, 3, "eng_Latn", ofKeys (fun t => (FLORES.get? t).getD "") ["hi", "te"], hindiFiles⟩

/-- Hindi by itself has its text, and a batch in which Telugu fails is lost. -/
theorem a_batch_agrees_for_hindi :
    (hindi.translateMany "hello." "en" ["hi"]).get? "hi" = some "namaste." ∧
      (hindi.translateMany "hello." "en" ["hi", "te"]).get? "hi" = some "" := by
  have hsplit : Itemwise hindi.files hindiAlone := fun _ _ _ _ _ => rfl
  rw [a_batch_agrees_with_single_calls hindi hindiAlone hsplit,
    a_batch_agrees_with_single_calls hindi hindiAlone hsplit]
  decide +kernel

end lad_translate.mt_nllb
