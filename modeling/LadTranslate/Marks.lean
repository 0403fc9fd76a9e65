-- Punctuation at the ends of words against the agreement. The comparison strips
-- a clause mark from the end of a word, but it keeps every character of the
-- Arabic and Devanagari blocks, and five of the marks lie in these.
import LadTranslate.Chunker

open prefixes

namespace lad_translate.phrase_chunker

/-- The clause and sentence marks that the clause detector knows. -/
def marks : List Char := strongChars ++ mediumChars

/-- The marks of the Arabic and Devanagari blocks. -/
def blockMarks : List Char := "۔،؛।॥".toList

theorem marks_eq : marks = ['.', '?', '!', '۔', '।', '॥', '。', '？', '！', ',', ';', ':', '،', '؛', '、',
    '，', '；', '：'] := rfl

theorem blockMarks_eq : blockMarks = ['۔', '،', '؛', '।', '॥'] := rfl

section

variable [Unicode]

/-- What the agreement takes from the Unicode tables: marks are no word
characters, a letter is one, and a letter with a block mark compares different
from the letter. -/
structure MarkTables : Prop where
  mark : ∀ c ∈ marks, Unicode.isWord c = false
  letter : Unicode.isWord 'a' = true
  distinct : ∀ c ∈ blockMarks,
    Unicode.casefold (Unicode.nfkc (String.ofList ['a', c])) ≠ Unicode.casefold (Unicode.nfkc "a")

/-- A letter or a digit: a word character but the underscore. -/
def LetterOrDigit (c : Char) : Prop := Unicode.isWord c = true ∧ c ≠ '_'

/-! ## The ends of a word -/

/-- A mark of no block is stripped. -/
theorem keptAtEdge_mark (htables : MarkTables) {c : Char} (hc : c ∈ marks) :
    keptAtEdge c = true ↔ c ∈ blockMarks := by
  rw [keptAtEdge, htables.mark c hc, Bool.false_or]
  rw [marks_eq] at hc
  rw [blockMarks_eq]
  revert c
  simp

omit [Unicode] in
theorem rdropWhile_append_all {p : Char → Bool} {l xs : List Char} (h : ∀ c ∈ xs, p c) :
    (l ++ xs).rdropWhile p = l.rdropWhile p := by
  induction xs using List.reverseRecOn with
  | nil => rw [List.append_nil]
  | append_singleton xs x ih =>
    rw [← List.append_assoc, List.rdropWhile_concat_pos _ _ _ (h x (by simp))]
    exact ih fun c hc => h c (List.mem_append_left _ hc)

/-- Characters that are not kept do not count after one that is. -/
theorem stripEdges_append {core xs : List Char} {last : Char} (hlast : keptAtEdge last = true)
    (h : ∀ c ∈ xs, keptAtEdge c = false) :
    stripEdges (String.ofList (core ++ last :: xs)) =
      stripEdges (String.ofList (core ++ [last])) := by
  have hne : (core ++ [last]).dropWhile (! keptAtEdge ·) ≠ [] := by
    intro hnil
    have hall := List.dropWhile_eq_nil_iff.mp hnil last (by simp)
    rw [hlast] at hall
    cases hall
  unfold stripEdges
  rw [String.toList_ofList, String.toList_ofList, List.append_cons, List.dropWhile_append, if_neg,
    rdropWhile_append_all]
  · intro c hc
    rw [h c hc]
    rfl
  · rw [List.isEmpty_iff]
    exact hne

/-! ## Streams that differ in marks -/

/-- Two words that differ at most in the marks of `S` at their end, after a
letter or a digit. -/
def MarkedAlike (S : List Char) (x y : String) : Prop :=
  x = y ∨ ∃ core last xs ys, LetterOrDigit last ∧ x = String.ofList (core ++ last :: xs) ∧
    y = String.ofList (core ++ last :: ys) ∧ (∀ c ∈ xs, c ∈ S) ∧ ∀ c ∈ ys, c ∈ S

/-- Two hypotheses that differ at most in the marks of `S` at the ends of their
words. -/
def HeardAlike (S : List Char) (x y : Hypothesis) : Prop :=
  y = { x with text := y.text } ∧
    List.Forall₂ (MarkedAlike S) (tokenise x.text) (tokenise y.text)

theorem normaliseToken_eq (htables : MarkTables) {S : List Char} (hS : ∀ c ∈ S, c ∈ marks)
    (hblock : ∀ c ∈ S, c ∉ blockMarks) {x y : String} (h : MarkedAlike S x y) :
    normaliseToken x = normaliseToken y := by
  rcases h with rfl | ⟨core, last, xs, ys, ⟨hlast, -⟩, rfl, rfl, hxs, hys⟩
  · rfl
  · have hkept : keptAtEdge last = true := by
      rw [keptAtEdge, hlast]
      rfl
    have hstripped : ∀ c ∈ S, keptAtEdge c = false := by
      intro c hc
      rw [← Bool.not_eq_true, keptAtEdge_mark htables (hS c hc)]
      exact hblock c hc
    unfold normaliseToken
    rw [stripEdges_append hkept fun c hc => hstripped c (hxs c hc),
      stripEdges_append hkept fun c hc => hstripped c (hys c hc)]

theorem normalised_eq (htables : MarkTables) {S : List Char} (hS : ∀ c ∈ S, c ∈ marks)
    (hblock : ∀ c ∈ S, c ∉ blockMarks) {x y : Hypothesis} (h : HeardAlike S x y) :
    normalised x.text = normalised y.text := by
  obtain ⟨-, htokens⟩ := h
  unfold normalised
  generalize tokenise x.text = us at htokens
  generalize tokenise y.text = vs at htokens
  induction htokens with
  | nil => rfl
  | cons hhead _ ih => rw [List.map_cons, List.map_cons, normaliseToken_eq htables hS hblock hhead, ih]

/-! ## The agreed length of a stream -/

namespace StabilityTracker

/-- The tracker after a stream of hypotheses. -/
def after (n : Nat) (hn : 1 ≤ n) (hyps : List Hypothesis) : StabilityTracker :=
  hyps.foldl add (fresh n hn)

theorem after_window (n : Nat) (hn : 1 ≤ n) (hyps : List Hypothesis) :
    (after n hn hyps).n = n ∧ (after n hn hyps).window = (hyps.flatMap (entriesOf n)).rtake n := by
  induction hyps using List.reverseRecOn with
  | nil => exact ⟨rfl, (List.rtake_nil n).symm⟩
  | append_singleton hyps hyp ih =>
    obtain ⟨hn', hwindow⟩ := ih
    have hsnoc : after n hn (hyps ++ [hyp]) = (after n hn hyps).add hyp := by
      rw [after, List.foldl_append]
      rfl
    rw [hsnoc, add_n, add_window, hn', hwindow, rtake_append_rtake, List.flatMap_append,
      List.flatMap_singleton]
    exact ⟨rfl, rfl⟩

/-- The agreed length is that of the prefix the last entries share. -/
theorem after_agreedLength (n : Nat) (hn : 1 ≤ n) (hyps : List Hypothesis) :
    (after n hn hyps).agreedLength = (agreedAfter n hyps).length := by
  obtain ⟨hn', hwindow⟩ := after_window n hn hyps
  rw [agreedLength_eq, agreedPrefix, hn', hwindow]
  rfl

end StabilityTracker

/-! ## When the marks do not count -/

/-- A window of one agrees with itself. -/
theorem agreedAfter_one (hyps : List Hypothesis) :
    agreedAfter 1 hyps = (hyps.getLast?.map fun hyp => normalised hyp.text).getD [] := by
  rcases List.eq_nil_or_concat hyps with rfl | ⟨older, hyp, rfl⟩
  · rfl
  · have hentries : StabilityTracker.entriesOf 1 hyp = [normalised hyp.text] := by
      unfold StabilityTracker.entriesOf
      split <;> rfl
    unfold agreedAfter
    rw [List.concat_eq_append, List.getLast?_concat, List.flatMap_append, List.flatMap_singleton,
      hentries, List.rtake_concat_succ, List.rtake_zero]
    rfl

theorem agreedAfter_length_eq (htables : MarkTables) {n : Nat} {S : List Char}
    (hS : ∀ c ∈ S, c ∈ marks) (h : n = 1 ∨ ∀ c ∈ S, c ∉ blockMarks) {xs ys : List Hypothesis}
    (hxy : List.Forall₂ (HeardAlike S) xs ys) :
    (agreedAfter n xs).length = (agreedAfter n ys).length := by
  rcases h with rfl | hblock
  · -- the newest hypotheses have as many words
    have hnewest := List.forall₂_reverse_iff.mpr hxy
    rw [agreedAfter_one, agreedAfter_one, ← List.head?_reverse, ← List.head?_reverse]
    generalize xs.reverse = us at hnewest
    generalize ys.reverse = vs at hnewest
    cases hnewest with
    | nil => rfl
    | cons hhead _ =>
      simp only [List.head?_cons, Option.map_some, Option.getD_some, normalised, List.length_map]
      exact hhead.2.length_eq
  · have hsame : xs.flatMap (StabilityTracker.entriesOf n) =
        ys.flatMap (StabilityTracker.entriesOf n) := by
      induction hxy with
      | nil => rfl
      | @cons x y xs ys hhead _ ih =>
        have htext := normalised_eq htables hS hblock hhead
        have hfinal : y.is_final = x.is_final := by rw [hhead.1]
        rw [List.flatMap_cons, List.flatMap_cons, ih, StabilityTracker.entriesOf,
          StabilityTracker.entriesOf, htext, hfinal]
    unfold agreedAfter
    rw [hsame]

/-- One letter, and the letter with a mark. -/
def letter : Hypothesis := .spoken "a" false 0

def lettered (c : Char) : Hypothesis := { letter with text := String.ofList ['a', c] }

omit [Unicode] in
theorem tokenise_letter : tokenise letter.text = ["a"] := by
  have htoken : IsToken "a" := by
    unfold IsToken
    exact ⟨by simp, by simp [isSpace]⟩
  exact tokenise_of_isToken htoken

omit [Unicode] in
theorem isToken_lettered {c : Char} (hc : c ∈ blockMarks) : IsToken (String.ofList ['a', c]) := by
  unfold IsToken
  rw [String.toList_ofList]
  refine ⟨by simp, ?_⟩
  rw [blockMarks_eq] at hc
  revert c
  simp [isSpace]

theorem heardAlike_letter (htables : MarkTables) {S : List Char} {c : Char} (hc : c ∈ S)
    (hblock : c ∈ blockMarks) : HeardAlike S (lettered c) letter := by
  refine ⟨rfl, ?_⟩
  have hmarked : tokenise (lettered c).text = [String.ofList ['a', c]] :=
    tokenise_of_isToken (isToken_lettered hblock)
  rw [tokenise_letter, hmarked]
  refine .cons (Or.inr ⟨[], 'a', [c], [], ⟨htables.letter, by decide⟩, rfl, rfl, ?_, by simp⟩) .nil
  intro x hx
  rwa [List.mem_singleton.mp hx]

theorem normalised_letter (htables : MarkTables) {c : Char} (hblock : c ∈ blockMarks) :
    normalised letter.text = [Unicode.casefold (Unicode.nfkc "a")] ∧
      normalised (lettered c).text =
        [Unicode.casefold (Unicode.nfkc (String.ofList ['a', c]))] := by
  have hmarked : tokenise (lettered c).text = [String.ofList ['a', c]] :=
    tokenise_of_isToken (isToken_lettered hblock)
  have hkept : keptAtEdge 'a' = true := by
    rw [keptAtEdge, htables.letter]
    rfl
  have hmark : keptAtEdge c = true := by
    refine (keptAtEdge_mark htables ?_).mpr hblock
    rw [blockMarks_eq] at hblock
    rw [marks_eq]
    revert c
    simp
  have hstrip : stripEdges (String.ofList ['a', c]) = String.ofList ['a', c] := by
    unfold stripEdges
    simp [hkept, hmark, List.rdropWhile]
  have hletter : stripEdges "a" = "a" := by
    unfold stripEdges
    simp [hkept, List.rdropWhile]
  unfold normalised normaliseToken
  rw [tokenise_letter, hmarked, List.map_singleton, List.map_singleton, hletter, hstrip]
  exact ⟨rfl, rfl⟩

/-- A window of two or more that starts with a block mark loses the word. -/
theorem agreedAfter_lettered (htables : MarkTables) {c : Char} (hblock : c ∈ blockMarks) (k : Nat) :
    agreedAfter (k + 2) (lettered c :: List.replicate (k + 1) letter) = [] ∧
      (agreedAfter (k + 2) (letter :: List.replicate (k + 1) letter)).length = 1 := by
  obtain ⟨hletter, hlettered⟩ := normalised_letter htables hblock
  have hentries : ∀ hyp ∈ [letter, lettered c],
      StabilityTracker.entriesOf (k + 2) hyp = [normalised hyp.text] := by
    intro hyp hmem
    have hinterim : hyp.is_final = false := by
      rcases List.mem_cons.mp hmem with rfl | hmem
      · rfl
      · rw [List.mem_singleton.mp hmem]
        rfl
    rw [StabilityTracker.entriesOf, hinterim, if_neg (by decide)]
  have hrest : (List.replicate (k + 1) letter).flatMap (StabilityTracker.entriesOf (k + 2)) =
      List.replicate (k + 1) (normalised letter.text) := by
    rw [List.flatMap_replicate, hentries letter (by simp)]
    simp
  have hfull : ∀ x : List String, (x :: List.replicate (k + 1) (normalised letter.text)).rtake
      (k + 2) = x :: List.replicate (k + 1) (normalised letter.text) := by
    intro x
    rw [List.rtake, List.length_cons, List.length_replicate, Nat.sub_self, List.drop_zero]
  have hwindow : ∀ hyp ∈ [letter, lettered c],
      agreedAfter (k + 2) (hyp :: List.replicate (k + 1) letter) =
        commonPrefix (normalised hyp.text :: List.replicate (k + 1) (normalised letter.text)) := by
    intro hyp hmem
    unfold agreedAfter
    rw [List.flatMap_cons, hentries hyp hmem, hrest, List.singleton_append, hfull]
    simp only [List.length_cons, List.length_replicate]
    rw [if_neg (by omega)]
  refine ⟨?_, ?_⟩
  · rw [hwindow (lettered c) (by simp), hletter, hlettered]
    apply commonPrefix_eq_nil
    · exact List.mem_cons_self
    · exact List.mem_cons_of_mem _ (List.mem_replicate.mpr ⟨Nat.succ_ne_zero k, rfl⟩)
    · exact htables.distinct c hblock
  · rw [hwindow letter (by simp), ← List.replicate_succ, commonPrefix_replicate, hletter]
    rfl

/-- Streams that differ only in some marks at the ends of their words have the
same agreed lengths exactly when one hypothesis is enough to agree, or none of
these marks is of the Arabic or Devanagari block. -/
theorem marks_never_reset_iff (htables : MarkTables) (n : Nat) (hn : 1 ≤ n) (S : List Char)
    (hS : ∀ c ∈ S, c ∈ strongChars ++ mediumChars) :
    (∀ xs ys, List.Forall₂ (HeardAlike S) xs ys → ∀ i,
      (StabilityTracker.after n hn (xs.take i)).agreedLength =
        (StabilityTracker.after n hn (ys.take i)).agreedLength) ↔
      n = 1 ∨ ∀ c ∈ S, c ∉ blockMarks := by
  constructor
  · intro hall
    by_contra hnot
    push Not at hnot
    obtain ⟨hmany, c, hc, hblock⟩ := hnot
    obtain ⟨k, rfl⟩ : ∃ k, n = k + 2 := ⟨n - 2, by omega⟩
    have hsame : ∀ m, List.Forall₂ (HeardAlike S) (List.replicate m letter)
        (List.replicate m letter) := by
      intro m
      apply List.forall₂_same.mpr
      exact fun x _ => ⟨rfl, List.forall₂_same.mpr fun w _ => Or.inl rfl⟩
    have hlengths := hall (lettered c :: List.replicate (k + 1) letter)
      (letter :: List.replicate (k + 1) letter)
      (.cons (heardAlike_letter htables hc hblock) (hsame (k + 1))) (k + 2)
    rw [StabilityTracker.after_agreedLength, StabilityTracker.after_agreedLength,
      List.take_of_length_le (by simp), List.take_of_length_le (by simp)] at hlengths
    obtain ⟨hlost, hkept⟩ := agreedAfter_lettered htables hblock k
    rw [hlost, hkept] at hlengths
    cases hlengths
  · intro h xs ys hxy i
    rw [StabilityTracker.after_agreedLength, StabilityTracker.after_agreedLength]
    exact agreedAfter_length_eq htables hS h (List.forall₂_take i hxy)

end

/-! ## Two streams of one letter -/

open ascii

theorem ascii_markTables : MarkTables where
  mark := by
    rw [marks_eq]
    simp [Unicode.isWord, Char.isAlphanum, Char.isAlpha, Char.isUpper, Char.isLower, Char.isDigit]
  letter := by decide +kernel
  distinct := by
    rw [blockMarks_eq]
    simp [Unicode.casefold, Unicode.nfkc]

/-- Full stops and commas never reset anything. -/
theorem marks_never_reset_for_latin_marks :
    (∀ xs ys, List.Forall₂ (HeardAlike ['.', ',']) xs ys → ∀ i,
      (StabilityTracker.after 2 (by decide) (xs.take i)).agreedLength =
        (StabilityTracker.after 2 (by decide) (ys.take i)).agreedLength) ↔
      2 = 1 ∨ ∀ c ∈ ['.', ','], c ∉ blockMarks := by
  refine marks_never_reset_iff ascii_markTables 2 (by decide) ['.', ','] ?_
  show ∀ c ∈ ['.', ','], c ∈ marks
  rw [marks_eq]
  simp

/-- A word that a full stop of Urdu follows once is not agreed on, and it is
without the full stop. -/
theorem an_urdu_full_stop_resets :
    List.Forall₂ (HeardAlike (strongChars ++ mediumChars)) [lettered '۔', letter] [letter, letter] ∧
      (StabilityTracker.after 2 (by decide) [lettered '۔', letter]).agreedLength = 0 ∧
      (StabilityTracker.after 2 (by decide) [letter, letter]).agreedLength = 1 := by
  have hblock : '۔' ∈ blockMarks := by
    rw [blockMarks_eq]
    exact List.mem_cons_self
  have hmark : '۔' ∈ strongChars ++ mediumChars := by
    show '۔' ∈ marks
    rw [marks_eq]
    simp
  obtain ⟨hlost, hkept⟩ := agreedAfter_lettered ascii_markTables hblock 0
  refine ⟨.cons (heardAlike_letter ascii_markTables hmark hblock)
    (.cons ⟨rfl, List.forall₂_same.mpr fun w _ => Or.inl rfl⟩ .nil), ?_, ?_⟩
  · rw [StabilityTracker.after_agreedLength]
    exact congrArg List.length hlost
  · rw [StabilityTracker.after_agreedLength]
    exact hkept

end lad_translate.phrase_chunker
