-- The data of the phrase chunker: the hypotheses it reads (adapters/base.py),
-- the phrases it commits and its tuning knobs (chunker/types.py). Seconds are
-- exact rationals.
import LadTranslate.Text

namespace lad_translate.phrase_chunker

/-- Audio position of a single word, when the backend can supply it. -/
structure WordTiming where
  word : String
  t_audio_start : ℚ
  t_audio_end : ℚ
deriving DecidableEq, Repr

/-- One transcript hypothesis from the STT backend. -/
structure Hypothesis where
  text : String
  is_final : Bool
  t_audio_start : ℚ
  t_audio_end : ℚ
  t_wall : ℚ
  seq : Nat
  language : Option String := none
  confidence : Option ℚ := none
  words : Option (List WordTiming) := none
deriving DecidableEq, Repr

/-- A hypothesis with no word timings, heard as it was produced. -/
def Hypothesis.spoken (text : String) (is_final : Bool) (t_wall : ℚ) : Hypothesis :=
  { text, is_final, t_audio_start := 0, t_audio_end := t_wall, t_wall, seq := 0 }

/-- Why a chunk was emitted. -/
inductive CommitReason
  | clause
  | maxWords
  | stabilityTimeout
  | silence
  | final
deriving DecidableEq, Repr

/-- The text of a reason in the transcript table. -/
def CommitReason.value : CommitReason → String
  | .clause => "clause"
  | .maxWords => "max_words"
  | .stabilityTimeout => "stability_timeout"
  | .silence => "silence"
  | .final => "final"

/-- A unit of text committed for translation. -/
structure PhraseChunk where
  chunk_id : Nat
  text : String
  t_audio_start : ℚ
  t_audio_end : ℚ
  t_wall_committed : ℚ
  reason : CommitReason
  word_count : Nat
  stability_lag : ℚ
  revised_after_commit : Bool := false
deriving DecidableEq, Repr

/-- The words of a chunk. -/
def PhraseChunk.words (c : PhraseChunk) : List String := tokenise c.text

/-- Tuning for the phrase chunker. -/
structure ChunkerConfig where
  agreement_n : Nat := 2
  min_words : Nat := 4
  max_words : Nat := 25
  max_wait_s : ℚ := 1
  silence_commit_s : ℚ := 6 / 10
  allow_conjunction_boundary : Bool := true
  conjunction_threshold : ℚ := 7 / 10
deriving DecidableEq, Repr

end lad_translate.phrase_chunker
