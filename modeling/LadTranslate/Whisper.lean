-- The sliding window adapter (adapters/stt_whisper.py): a buffer of audio that
-- is transcribed again and again. The Whisper model may answer differently
-- each time that it is asked. Levels are compared as mean squares. The log
-- lines, and what only they read, are left out.
import LadTranslate.FastConformer

open lad_translate.audio lad_translate.phrase_chunker

namespace lad_translate.stt_whisper

open stt_fastconformer (SAMPLE_RATE_16K resampleTo16k)

def WHISPER_SAMPLE_RATE : Nat := SAMPLE_RATE_16K

/-! ## Hallucinations -/

/-- Phrases that Whisper emits when there is nothing to transcribe. -/
def HALLUCINATED_ON_SILENCE : List String :=
  ["thank you.", "thank you", "thanks for watching!", "thanks for watching",
    "thank you for watching.", "thank you for watching",
    "thanks for watching and see you next time.", "please subscribe to my channel.",
    "subtitles by the amara.org community", "you", "bye.", "bye", "okay.", ".", "..."]

/-- `str.lower()`. The laws hold for any table. -/
class CaseTable where
  lower : String → String

namespace ascii

/-- A table that is right for ASCII text. -/
scoped instance : CaseTable where
  lower s := String.ofList (s.toList.map Char.toLower)

end ascii

/-- A segment that the model returns. -/
structure Segment where
  text : String
  no_speech_prob : ℚ
  avg_logprob : ℚ
deriving DecidableEq

/-- Whether a segment looks invented rather than heard. -/
def isHallucination [CaseTable] (text : String) (no_speech_prob avg_logprob : ℚ) : Bool :=
  let stripped := CaseTable.lower (strip text)
  if stripped = "" then true
  else if no_speech_prob > 8 / 10 ∧ avg_logprob < -5 / 10 then true
  else decide (stripped ∈ HALLUCINATED_ON_SILENCE ∧
    (no_speech_prob > 5 / 10 ∨ avg_logprob < -7 / 10))

/-! ## The adapter -/

/-- The answer of the model, when it was asked so many times before. -/
abbrev WhisperModel := Nat → List ℚ → List Segment

/-- `np.mean(np.square(samples))`. -/
def meanSquare (samples : List ℚ) : ℚ := (samples.map fun x => x * x).sum / samples.length

/-- The root mean square is below a level. -/
def Quieter (samples : List ℚ) (level : ℚ) : Prop := 0 < level ∧ meanSquare samples < level * level

instance (samples : List ℚ) (level : ℚ) : Decidable (Quieter samples level) :=
  inferInstanceAs (Decidable (_ ∧ _))

/-- The adapter. It has its model inside its `async with`. -/
structure WhisperSttAdapter where
  loaded : Bool
  language : String := "en"
  emit_interval : ℚ := 5 / 10
  max_window_s : ℚ := 8
  silence_rms : ℚ := 5 / 1000
  silence_duration_s : ℚ := 7 / 10
  speech_rms : ℚ := 6 / 1000
  buffer : List ℚ := []
  buffer_start_audio : ℚ := 0
  locked_text : String := ""
  seq : Nat := 0
  quiet_for : ℚ := 0

namespace WhisperSttAdapter

def trackSilence (a : WhisperSttAdapter) (audio : List ℚ) (duration : ℚ) : WhisperSttAdapter :=
  if audio = [] then a
  else { a with quiet_for := if Quieter audio a.silence_rms then a.quiet_for + duration else 0 }

def currentAudioEnd (a : WhisperSttAdapter) : ℚ :=
  a.buffer_start_audio + a.buffer.length / (WHISPER_SAMPLE_RATE : ℚ)

/-- It was quiet for long enough to close the utterance. -/
def Quiet (a : WhisperSttAdapter) : Prop := a.quiet_for ≥ a.silence_duration_s

/-- The window reached its cap. -/
def Overlong (a : WhisperSttAdapter) : Prop :=
  (a.buffer.length : ℚ) / WHISPER_SAMPLE_RATE ≥ a.max_window_s

instance (a : WhisperSttAdapter) : Decidable a.Quiet := inferInstanceAs (Decidable (_ ≥ _))

instance (a : WhisperSttAdapter) : Decidable a.Overlong := inferInstanceAs (Decidable (_ ≥ _))

/-- The text of the buffer, and how often the model was asked by then. It is
not asked about silence. -/
def transcribeBuffer [CaseTable] (m : WhisperModel) (a : WhisperSttAdapter) (asks : Nat) :
    String × Nat :=
  if a.buffer = [] then ("", asks)
  else if Quieter a.buffer a.speech_rms then ("", asks)
  else
    let kept := (m asks a.buffer).filter fun seg =>
      ! isHallucination seg.text seg.no_speech_prob seg.avg_logprob
    (strip (joinTokens (kept.map fun seg => strip seg.text)), asks + 1)

/-- The hypothesis of a window. `now` reads the wall clock for each one. -/
def hypothesis (now : Nat → ℚ) (a : WhisperSttAdapter) (window_text : String) (is_final : Bool) :
    Hypothesis where
  text := strip (a.locked_text ++ " " ++ window_text)
  is_final
  t_audio_start := 0
  t_audio_end := a.currentAudioEnd
  t_wall := now (a.seq + 1)
  seq := a.seq + 1
  language := some a.language

/-- A frame joins the buffer. -/
def receive (a : WhisperSttAdapter) (frame : AudioFrame) (audio : List ℚ) : WhisperSttAdapter :=
  let a := if a.buffer.length = 0 then { a with buffer_start_audio := frame.t_audio } else a
  { a with buffer := a.buffer ++ audio }.trackSilence audio frame.duration

/-- The utterance is closed: its text is locked and the buffer cleared. -/
def close (a : WhisperSttAdapter) (text : String) : WhisperSttAdapter :=
  { a with locked_text := strip (a.locked_text ++ " " ++ text), buffer := [], quiet_for := 0 }

end WhisperSttAdapter

/-! ## The transcription -/

/-- A hypothesis with the pass that it came from: the window's own text, the
window, and how many frames were heard before the window began. -/
structure Pass where
  hypothesis : Hypothesis
  text : String
  window : List ℚ
  opened : Nat
deriving DecidableEq

/-- What `transcribe` has heard. The last four fields are records: the frames
so far, those before the window, the calls of the model, and the passes that
yielded a hypothesis. -/
structure Listening where
  adapter : WhisperSttAdapter
  next_emit : ℚ
  heard : Nat
  opened : Nat
  asks : Nat
  passes : List Pass

section

variable [CaseTable] (m : WhisperModel) (now : Nat → ℚ)

namespace Listening

omit [CaseTable] in
/-- Yield a hypothesis. -/
def yields (w : Listening) (text : String) (is_final : Bool) : Listening :=
  { w with
    adapter := { w.adapter with seq := w.adapter.seq + 1 }
    passes := w.passes ++
      [⟨w.adapter.hypothesis now text is_final, text, w.adapter.buffer, w.opened⟩] }

omit [CaseTable] in
/-- The frame is in the buffer. -/
def receives (w : Listening) (frame : AudioFrame) (audio : List ℚ) : Listening :=
  { w with
    adapter := w.adapter.receive frame audio
    heard := w.heard + 1
    opened := if w.adapter.buffer.length = 0 then w.heard else w.opened }

end Listening

/-- The body of the loop over the frames, with the converted frame. -/
def onAudio (w : Listening) (frame : AudioFrame) (audio : List ℚ) : Listening :=
  let w := w.receives frame audio
  let a := w.adapter
  if frame.t_wall < w.next_emit ∧ ¬ a.Quiet ∧ ¬ a.Overlong then w
  else
    let (text, asks) := a.transcribeBuffer m w.asks
    let w := { w with next_emit := frame.t_wall + a.emit_interval, asks }
    if text = "" ∧ ¬ a.Quiet then w
    else
      let finalise : Bool := a.Quiet ∨ a.Overlong
      let w := w.yields now text finalise
      if finalise then { w with adapter := w.adapter.close text } else w

def onFrame (w : Listening) (frame : AudioFrame) : Except String Listening := do
  let audio ← resampleTo16k frame.pcm frame.sample_rate
  return onAudio m now w frame audio

/-- End of stream: the text of what is left. -/
def atEnd (w : Listening) : Listening :=
  if w.adapter.buffer = [] then w
  else
    let (text, asks) := w.adapter.transcribeBuffer m w.asks
    let w := { w with asks }
    if text = "" then w else w.yields now text true

/-- Consume audio frames, yield hypotheses. -/
def transcribe (a : WhisperSttAdapter) (frames : List AudioFrame) : Except String Listening := do
  if a.loaded = false then throw "use WhisperSttAdapter as an async context manager"
  let w ← frames.foldlM (onFrame m now) ⟨a, 0, 0, 0, 0, []⟩
  return atEnd m now w

end

end lad_translate.stt_whisper
