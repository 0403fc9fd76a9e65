-- Clause boundary detection (chunker/clause.py): the latest defensible cut
-- point in a run of tokens.
import LadTranslate.ChunkerTypes

namespace lad_translate.phrase_chunker

/-- The strength of a boundary, weakest first (an `IntEnum`). -/
inductive BoundaryStrength
  | none
  | weak
  | medium
  | strong
deriving DecidableEq, Repr

def BoundaryStrength.value : BoundaryStrength → Nat
  | .none => 0
  | .weak => 1
  | .medium => 2
  | .strong => 3

/-- Latin, Arabic, Devanagari and CJK sentence terminators. -/
def strongChars : List Char := ".?!۔।॥。？！".toList

/-- Clause separators, with the Arabic and CJK forms. -/
def mediumChars : List Char := ",;:،؛、，；：".toList

/-- Tokens whose trailing full stop is an abbreviation, not a sentence end. -/
def abbreviations : List String := [
  "mr", "mrs", "ms", "dr", "prof", "sr", "jr", "st", "mt",
  "inc", "ltd", "llc", "co", "corp", "plc",
  "eg", "ie", "etc", "vs", "approx", "dept", "est",
  "jan", "feb", "mar", "apr", "jun", "jul", "aug", "sep", "sept", "oct", "nov", "dec",
  "mon", "tue", "wed", "thu", "fri", "sat", "sun",
  "am", "pm", "no", "vol", "fig", "pp"]

/-- English conjunctions. Weak boundaries sit before these, never after. -/
def conjunctions : List String := [
  "and", "but", "or", "so", "yet", "for", "nor",
  "because", "although", "though", "while", "whereas", "since",
  "if", "unless", "until", "when", "whenever", "where", "wherever",
  "that", "which", "who", "whom", "whose", "after", "before",
  "however", "therefore", "moreover", "furthermore", "meanwhile"]

variable [Unicode]

/-- Whether a trailing full stop really terminates a sentence. -/
def endsSentence (token : String) : Bool :=
  match token.toList.getLast? with
  | none => false
  | some last =>
    if last ∉ strongChars then false
    else if last ≠ '.' then true
    else
      let stem := String.ofList token.toList.dropLast
      if stem = "" then false
      else if stem.toList.any Unicode.isDigit then false
      else if stem.length = 1 then false
      else decide (normaliseToken stem ∉ abbreviations)

/-- Strength of the boundary immediately after this token. -/
def tokenBoundaryStrength (token : String) : BoundaryStrength :=
  match token.toList.getLast? with
  | none => .none
  | some last =>
    if endsSentence token then .strong
    else if last ∈ mediumChars then .medium
    else .none

def isConjunction (token : String) : Bool := decide (normaliseToken token ∈ conjunctions)

/-- The walk for strong and medium boundaries, latest first, over the
positions below `i`. With `min_words` 0 the source reads the last token once
more, which its first turn refused. -/
def latestMark (tokens : List String) (min_words : Nat) : Nat → Option (Nat × BoundaryStrength)
  | 0 => none
  | i + 1 =>
    if i + 1 < min_words then none
    else
      let strength := tokenBoundaryStrength (tokens.getD i "")
      if strength.value ≥ BoundaryStrength.medium.value then some (i + 1, strength)
      else latestMark tokens min_words i

/-- The walk for a conjunction, latest first. -/
def latestConjunction (tokens : List String) (min_words : Nat) : Nat → Option Nat
  | 0 => none
  | i + 1 =>
    if i < min_words then none
    else if isConjunction (tokens.getD i "") then some i
    else latestConjunction tokens min_words i

/-- The latest usable cut point: (exclusive end index, strength). An end of 0
means that the caller keeps waiting. -/
def findBoundary (tokens : List String) (min_words : Nat) (allow_weak : Bool) :
    Nat × BoundaryStrength :=
  if tokens.length < min_words then (0, .none)
  else
    match latestMark tokens min_words tokens.length with
    | some cut => cut
    | none =>
      if !allow_weak then (0, .none)
      else
        match latestConjunction tokens min_words tokens.length with
        | some i => (i, .weak)
        | none => (0, .none)

theorem latestMark_le {tokens : List String} {min_words i : Nat} {cut : Nat × BoundaryStrength}
    (h : latestMark tokens min_words i = some cut) : cut.1 ≤ i := by
  induction i with
  | zero => simp [latestMark] at h
  | succ i ih =>
    simp only [latestMark] at h
    split_ifs at h with h1 h2
    · cases h
      exact le_rfl
    · exact (ih h).trans (Nat.le_succ i)

theorem latestConjunction_le {tokens : List String} {min_words i k : Nat}
    (h : latestConjunction tokens min_words i = some k) : k ≤ i := by
  induction i with
  | zero => simp [latestConjunction] at h
  | succ i ih =>
    simp only [latestConjunction] at h
    split_ifs at h with h1 h2
    · injection h with h
      omega
    · exact (ih h).trans (Nat.le_succ i)

theorem le_latestMark {tokens : List String} {min_words i : Nat} {cut : Nat × BoundaryStrength}
    (h : latestMark tokens min_words i = some cut) : min_words ≤ cut.1 := by
  induction i with
  | zero => simp [latestMark] at h
  | succ i ih =>
    simp only [latestMark] at h
    split_ifs at h with h1 h2
    · cases h
      exact Nat.le_of_not_lt h1
    · exact ih h

theorem le_latestConjunction {tokens : List String} {min_words i k : Nat}
    (h : latestConjunction tokens min_words i = some k) : min_words ≤ k := by
  induction i with
  | zero => simp [latestConjunction] at h
  | succ i ih =>
    simp only [latestConjunction] at h
    split_ifs at h with h1 h2
    · injection h with h
      omega
    · exact ih h

/-- A cut never lies past the tokens. -/
theorem findBoundary_le (tokens : List String) (min_words : Nat) (allow_weak : Bool) :
    (findBoundary tokens min_words allow_weak).1 ≤ tokens.length := by
  unfold findBoundary
  split
  · exact Nat.zero_le _
  · split
    · exact latestMark_le ‹_›
    · split
      · exact Nat.zero_le _
      · split
        · exact latestConjunction_le ‹_›
        · exact Nat.zero_le _

/-- A cut that there is leaves at least `min_words` tokens before it. -/
theorem le_findBoundary (tokens : List String) (min_words : Nat) (allow_weak : Bool) :
    (findBoundary tokens min_words allow_weak).1 = 0 ∨
      min_words ≤ (findBoundary tokens min_words allow_weak).1 := by
  unfold findBoundary
  split
  · exact Or.inl rfl
  · split
    · exact Or.inr (le_latestMark ‹_›)
    · split
      · exact Or.inl rfl
      · split
        · exact Or.inr (le_latestConjunction ‹_›)
        · exact Or.inl rfl

end lad_translate.phrase_chunker
