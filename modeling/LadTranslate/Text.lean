-- Text as the chunker reads it (chunker/stability.py): white space splits a
-- text into tokens, and two tokens are compared without their edge
-- punctuation and without their case.
import LadTranslate.Fields

open splitting

namespace lad_translate.phrase_chunker

/-- What the code takes from Python's Unicode tables. The laws hold for any
tables. -/
class Unicode where
  /-- `\w` of a regular expression. -/
  isWord : Char → Bool
  /-- `\d` of a regular expression. -/
  isDigit : Char → Bool
  /-- `unicodedata.normalize("NFKC", s)`. -/
  nfkc : String → String
  casefold : String → String

/-- The characters that `str.split()` splits on. -/
def isSpace (c : Char) : Bool :=
  decide (c.toNat ∈ [0x09, 0x0a, 0x0b, 0x0c, 0x0d, 0x1c, 0x1d, 0x1e, 0x1f, 0x20, 0x85, 0xa0,
    0x1680, 0x2000, 0x2001, 0x2002, 0x2003, 0x2004, 0x2005, 0x2006, 0x2007, 0x2008, 0x2009,
    0x200a, 0x2028, 0x2029, 0x202f, 0x205f, 0x3000])

/-- Split into white space delimited tokens, punctuation left attached. -/
def tokenise (text : String) : List String := (fields isSpace text.toList).map String.ofList

/-- `text.strip()`. -/
def strip (text : String) : String :=
  String.ofList ((text.toList.dropWhile isSpace).rdropWhile isSpace)

/-- A character between the quotes of a `repr`. Beyond ASCII every character
is taken to be printable. -/
def reprChar (quote c : Char) : List Char :=
  if c = quote ∨ c = Char.ofNat 0x5c then [Char.ofNat 0x5c, c]
  else if c.toNat = 0x09 then "\\t".toList
  else if c.toNat = 0x0a then "\\n".toList
  else if c.toNat = 0x0d then "\\r".toList
  else if c.toNat < 0x20 ∨ c.toNat = 0x7f then
    "\\x".toList ++ [Nat.digitChar (c.toNat / 16), Nat.digitChar (c.toNat % 16)]
  else [c]

/-- `repr(text)`: double quotes only around a text that has apostrophes and no
double quote. -/
def reprText (text : String) : String :=
  let apostrophe := Char.ofNat 0x27
  let double := Char.ofNat 0x22
  let quote :=
    if apostrophe ∈ text.toList ∧ double ∉ text.toList then double else apostrophe
  String.ofList ([quote] ++ text.toList.flatMap (reprChar quote) ++ [quote])

/-- `" ".join(tokens)`. -/
def joinTokens (tokens : List String) : String := " ".intercalate tokens

/-- What `tokenise` gives: some characters, and no white space. -/
def IsToken (token : String) : Prop := IsField isSpace token.toList

theorem isToken_of_mem {text token : String} (h : token ∈ tokenise text) : IsToken token := by
  obtain ⟨w, hw, rfl⟩ := List.mem_map.mp h
  unfold IsToken
  rw [String.toList_ofList]
  exact mem_fields hw

theorem tokenise_of_isToken {token : String} (h : IsToken token) : tokenise token = [token] := by
  unfold tokenise
  rw [fields_of_isField h, List.map_singleton, String.ofList_toList]

/-- A text joined from tokens splits back into them. -/
theorem tokenise_joinTokens {tokens : List String} (h : ∀ t ∈ tokens, IsToken t) :
    tokenise (joinTokens tokens) = tokens := by
  have hf : fields isSpace (joinTokens tokens).toList = tokens.map String.toList := by
    unfold joinTokens
    rw [String.toList_intercalate]
    apply fields_intercalate (s := ' ') (by decide)
    intro w hw
    obtain ⟨t, ht, rfl⟩ := List.mem_map.mp hw
    exact h t ht
  unfold tokenise
  rw [hf, List.map_map]
  simp [Function.comp_def]

@[simp] theorem tokenise_empty : tokenise "" = [] := rfl

/-- White space between two texts keeps their tokens apart. -/
theorem tokenise_append_space (s t : String) :
    tokenise (s ++ " " ++ t) = tokenise s ++ tokenise t := by
  unfold tokenise
  rw [String.toList_append, String.toList_append, List.append_assoc, ← List.map_append]
  exact congrArg _ (fields_append_cons s.toList (s := ' ') (by decide) t.toList)

@[simp] theorem tokenise_strip (text : String) : tokenise (strip text) = tokenise text := by
  unfold tokenise strip
  rw [String.toList_ofList, fields_rdropWhile, fields_dropWhile]

theorem strip_eq_empty {text : String} : strip text = "" ↔ tokenise text = [] := by
  constructor
  · intro h
    rw [← tokenise_strip, h, tokenise_empty]
  · intro h
    rw [tokenise, List.map_eq_nil_iff, ← fields_dropWhile, fields_eq_nil_iff] at h
    rw [strip, List.rdropWhile_eq_nil_iff.mpr h, String.ofList_nil]

/-- The tokens of joined texts are those of each text. -/
theorem tokenise_joined (texts : List String) :
    tokenise (joinTokens texts) = texts.flatMap tokenise := by
  induction texts with
  | nil => rfl
  | cons text texts ih =>
    cases texts with
    | nil => rw [joinTokens, String.intercalate_singleton, List.flatMap_singleton]
    | cons next texts =>
      have hjoin : joinTokens (text :: next :: texts) = text ++ " " ++ joinTokens (next :: texts) :=
        String.intercalate_cons_cons ..
      rw [hjoin, tokenise_append_space, ih]
      rfl

variable [Unicode]

/-- What `_EDGE_PUNCT` leaves at the edges: a word character, or any
character of the Arabic and Devanagari blocks. -/
def keptAtEdge (c : Char) : Bool :=
  Unicode.isWord c || (0x600 ≤ c.toNat && c.toNat ≤ 0x6ff) || (0x900 ≤ c.toNat && c.toNat ≤ 0x97f)

/-- `_EDGE_PUNCT.sub("", token)`. -/
def stripEdges (token : String) : String :=
  String.ofList ((token.toList.dropWhile (! keptAtEdge ·)).rdropWhile (! keptAtEdge ·))

/-- Lowercase and strip edge punctuation, for the agreement comparison only. -/
def normaliseToken (token : String) : String :=
  Unicode.casefold (Unicode.nfkc (stripEdges token))

/-- The normalised tokens of a text. -/
def normalised (text : String) : List String := (tokenise text).map normaliseToken

namespace ascii

/-- Tables that are right for ASCII text. -/
scoped instance tables : Unicode where
  isWord c := c.isAlphanum || c == '_'
  isDigit c := c.isDigit
  nfkc s := s
  casefold s := String.ofList (s.toList.map Char.toLower)

end ascii

end lad_translate.phrase_chunker
