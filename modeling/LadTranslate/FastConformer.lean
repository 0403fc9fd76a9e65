-- The streaming adapter (adapters/stt_fastconformer.py) and its sample
-- conversion (adapters/audio.py). The front end and the encoder step are
-- functions of what they are given. Samples are exact rationals.
import LadTranslate.Audio
import LadTranslate.Blocks
import LadTranslate.ChunkerTypes
import LadTranslate.Fallible
import LadTranslate.FrameSchedule
import LadTranslate.Rounding

open blocks fallible rounding lad_translate.audio lad_translate.phrase_chunker

namespace lad_translate.stt_fastconformer

/-! ## Samples -/

def SAMPLE_RATE_16K : Nat := 16000

/-- A signed 16-bit little-endian number. -/
def int16 (lo hi : UInt8) : Int :=
  let n : Int := lo.toNat + 256 * hi.toNat
  if n < 32768 then n else n - 65536

/-- `np.frombuffer(pcm, dtype=np.int16) / 32768.0`. -/
def fromBuffer : List UInt8 → Except String (List ℚ)
  | [] => .ok []
  | [_] => .error "buffer size must be a multiple of element size"
  | lo :: hi :: rest => do
    let samples ← fromBuffer rest
    return (int16 lo hi : ℚ) / 32768 :: samples

/-- `np.linspace(0, stop, count)`. -/
def linspace (stop : ℚ) (count : Nat) : List ℚ :=
  (List.range count).map fun i => if count = 1 then 0 else i * stop / (count - 1 : ℚ)

/-- `np.interp(position, np.arange(samples.size), samples)`, at a position
between the first and the last sample. -/
def interp (samples : List ℚ) (position : ℚ) : ℚ :=
  let i := ⌊position⌋.toNat
  let here := samples.getD i 0
  let next := samples.getD (i + 1) here
  here + (position - i) * (next - here)

/-- Convert int16 PCM to mono at 16 kHz, by linear interpolation. -/
def resampleTo16k (pcm : List UInt8) (source_rate : Nat) : Except String (List ℚ) := do
  let samples ← fromBuffer pcm
  if source_rate = SAMPLE_RATE_16K ∨ samples.length = 0 then return samples
  let target_len := roundHalfEven (samples.length * SAMPLE_RATE_16K / source_rate)
  if target_len ≤ 0 then return []
  return (linspace (samples.length - 1) target_len.toNat).map (interp samples)

/-! ## Word stamps -/

/-- The words of the transcript, each with the audio position of the step that
produced it. -/
structure WordClock where
  words : List String
  ends : List ℚ
deriving DecidableEq

namespace WordClock

def fresh : WordClock := ⟨[], []⟩

/-- How many words two transcripts share, from the first on. -/
def sharedWords : List String → List String → Nat
  | old :: olds, new :: news => if old ≠ new then 0 else sharedWords olds news + 1
  | _, _ => 0

/-- Contiguous timings, from the end of the previous word. -/
def timings (previous : ℚ) : List (String × ℚ) → List WordTiming
  | [] => []
  | (word, stop) :: rest => ⟨word, previous, stop⟩ :: timings stop rest

/-- The divergent tail is stamped with `audio_end`. The rest keeps its stamps. -/
def stamp (c : WordClock) (text : String) (audio_end : ℚ) : WordClock × List WordTiming :=
  let words := tokenise text
  let shared := sharedWords c.words words
  let c : WordClock :=
    { words := c.words.take shared ++ words.drop shared
      ends := c.ends.take shared ++ (words.drop shared).map fun _ => audio_end }
  (c, timings 0 (c.words.zip c.ends))

end WordClock

/-! ## The adapter -/

/-- What `conformer_stream_step` returns as its transcript: nothing, a list of
texts (CTC), or a list of hypothesis objects with their text (RNNT). -/
inductive Transcribed
  | nothing
  | texts (l : List String)
  | hypotheses (l : List (Option String))

def extractText : Transcribed → String
  | .nothing | .texts [] | .hypotheses [] => ""
  | .texts (first :: _) => strip first
  | .hypotheses (first :: _) => strip (first.getD "")

/-- The model: its front end, a frame of zeros, and the encoder step with the
state that it carries. -/
structure SpeechModel (φ σ : Type) where
  featurise : List ℚ → List φ
  zero : φ
  initial : σ
  streamStep : σ → List φ → Bool → Nat → σ × Transcribed

/-- The adapter. It has a geometry inside its `async with`. -/
structure FastConformerSttAdapter where
  geometry : Option StreamingGeometry
  preprocess_block_s : ℚ := 32 / 100
  language : String := "en"
  seq : Nat := 0
  clock : WordClock := .fresh

/-- `int(SAMPLE_RATE_16K * self.preprocess_block_s)`. -/
def FastConformerSttAdapter.samplesPerBlock (a : FastConformerSttAdapter) : Nat :=
  ⌊SAMPLE_RATE_16K * a.preprocess_block_s⌋.toNat

/-- One encoder step: its plan, its input and its text. -/
structure EncoderStep (φ : Type) where
  plan : ChunkPlan
  input : List φ
  keep_all_outputs : Bool
  text : String
deriving DecidableEq

/-- What `transcribe` has heard: the carried state, the transcript, and the
record of the steps and the hypotheses. -/
structure Hearing (φ σ : Type) where
  state : σ
  last_emitted : String
  text : String
  last_plan : Option ChunkPlan
  seq : Nat
  clock : WordClock
  steps : List (EncoderStep φ)
  yielded : List Hypothesis

/-- `diverges` is a loop that never ends. -/
inductive Fault
  | raised (message : String)
  | diverges
deriving DecidableEq

/-- The local variables of `transcribe`. -/
structure Transcriber (φ σ : Type) where
  hearing : Hearing φ σ
  buffer : FeatureBuffer φ
  schedule : ChunkSchedule
  pending : List ℚ

section

variable {φ σ : Type} (m : SpeechModel φ σ) (geometry : StreamingGeometry) (language : String)
  (now : Nat → ℚ)

namespace Hearing

def fresh (a : FastConformerSttAdapter) : Hearing φ σ where
  state := m.initial
  last_emitted := ""
  text := ""
  last_plan := none
  seq := a.seq
  clock := a.clock
  steps := []
  yielded := []

/-- One encoder step on a slice of the features. -/
def runStep (h : Hearing φ σ) (chunk : List φ) (plan : ChunkPlan) (keep_all_outputs : Bool) :
    Hearing φ σ :=
  let input := List.replicate plan.zero_pad m.zero ++ chunk
  let (state, transcribed) := m.streamStep h.state input keep_all_outputs plan.drop_extra_pre_encoded
  let text := extractText transcribed
  { h with
    state, text
    last_plan := some plan
    steps := h.steps ++ [⟨plan, input, keep_all_outputs, text⟩] }

/-- Yield a hypothesis. `now` reads the wall clock for each one. -/
def hypothesis (h : Hearing φ σ) (plan : ChunkPlan) (is_final : Bool) : Hearing φ σ :=
  let seq := h.seq + 1
  let audio_end := geometry.audioTime plan.stop
  let (clock, words) := h.clock.stamp h.text audio_end
  { h with
    seq, clock
    yielded := h.yielded ++ [{
      text := h.text
      is_final
      t_audio_start := 0
      t_audio_end := audio_end
      t_wall := now seq
      seq
      language := some language
      words := some words }] }

/-- An interim goes out when the text has changed. -/
def emitInterim (h : Hearing φ σ) (plan : ChunkPlan) : Hearing φ σ :=
  if h.text ≠ "" ∧ h.text ≠ h.last_emitted then
    hypothesis geometry language now { h with last_emitted := h.text } plan false
  else h

/-- The final goes out when there is a text. -/
def emitFinal (h : Hearing φ σ) : Hearing φ σ :=
  match h.last_plan with
  | some last_plan =>
    if h.text ≠ "" then hypothesis geometry language now h last_plan true else h
  | none => h

/-- A step of a session and its interim, on a slice. -/
def listen (chunk : List φ) (h : Hearing φ σ) (plan : ChunkPlan) : Hearing φ σ :=
  (h.runStep m chunk plan false).emitInterim geometry language now plan

end Hearing

/-- The preprocess loop. Blocks of 0 samples never end. -/
def blockLoop (samples_per_block : Nat) :
    Nat → List ℚ → FeatureBuffer φ → Option (List ℚ × FeatureBuffer φ)
  | 0, _, _ => none
  | fuel + 1, pending, buffer =>
    if pending.length ≥ samples_per_block then
      blockLoop samples_per_block fuel (pending.drop samples_per_block)
        (buffer.append (m.featurise (pending.take samples_per_block)))
    else some (pending, buffer)

def orDiverge {α : Type} : Option α → Except Fault α
  | some a => .ok a
  | none => .error .diverges

/-- The steps of one batch, each on its slice of the buffer. -/
def runPlans (buffer : FeatureBuffer φ) :
    List ChunkPlan → Hearing φ σ → Except Fault (Hearing φ σ)
  | [], h => .ok h
  | plan :: plans, h => do
    let chunk ← (buffer.slice plan.cache_start plan.stop).mapError .raised
    runPlans buffer plans (h.listen m geometry language now chunk plan)

/-- The body of the loop over the frames. -/
def onFrame (samples_per_block : Nat) (t : Transcriber φ σ) (frame : AudioFrame) :
    Except Fault (Transcriber φ σ) := do
  let samples ← (resampleTo16k frame.pcm frame.sample_rate).mapError .raised
  let pending := t.pending ++ samples
  let (pending, buffer) ← orDiverge (blockLoop m samples_per_block (pending.length + 1) pending t.buffer)
  let (schedule, plans) ← orDiverge (t.schedule.offer buffer.available)
  let hearing ← runPlans m geometry language now buffer plans t.hearing
  -- dropped once, when the batch is finished: a later plan may need the history
  let buffer := if plans = [] then buffer else buffer.discardBefore schedule.retainFrom
  return { hearing, buffer, schedule, pending }

/-- End of stream: whatever is left goes through, short chunk and all. -/
def atEnd (t : Transcriber φ σ) : Except Fault (Hearing φ σ) := do
  let buffer := if t.pending = [] then t.buffer else t.buffer.append (m.featurise t.pending)
  match (t.schedule.flush buffer.available).2 with
  | none => return t.hearing.emitFinal geometry language now
  | some plan =>
    let chunk ← (buffer.slice plan.cache_start plan.stop).mapError .raised
    return (t.hearing.runStep m chunk plan true).emitFinal geometry language now

/-- Consume audio frames, yield hypotheses as they become available. -/
def transcribe (a : FastConformerSttAdapter) (frames : List AudioFrame) :
    Except Fault (Hearing φ σ) :=
  match a.geometry with
  | none => .error (.raised "use FastConformerSttAdapter as an async context manager")
  | some geometry => do
    let t ← frames.foldlM (onFrame m geometry a.language now a.samplesPerBlock)
      { hearing := .fresh m a, buffer := .fresh, schedule := .fresh geometry, pending := [] }
    atEnd m geometry a.language now t

/-! ## What a frame does -/

variable {m geometry language now}

theorem orDiverge_eq_ok {α : Type} {x : Option α} {a : α} : orDiverge x = .ok a ↔ x = some a := by
  cases x with
  | none => exact ⟨fun h => (by cases h), fun h => (by cases h)⟩
  | some b => exact ⟨fun h => congrArg some (Except.ok.inj h), fun h => (by cases h; rfl)⟩

/-- What each step of a batch keeps holds after the batch. -/
theorem runPlans_induction {P : Hearing φ σ → Prop} {buffer : FeatureBuffer φ}
    {plans : List ChunkPlan} {h h' : Hearing φ σ}
    (hstep : ∀ plan ∈ plans, ∀ chunk h, P h → P (h.listen m geometry language now chunk plan))
    (h0 : P h) (hrun : runPlans m geometry language now buffer plans h = .ok h') : P h' := by
  induction plans generalizing h with
  | nil =>
    cases hrun
    exact h0
  | cons plan plans ih =>
    unfold runPlans at hrun
    obtain ⟨chunk, -, hrun⟩ := bind_eq_ok.mp hrun
    apply ih
    · exact fun p hp => hstep p (List.mem_cons_of_mem _ hp)
    · exact hstep plan List.mem_cons_self chunk h h0
    · exact hrun

theorem emitInterim_steps (h : Hearing φ σ) (plan : ChunkPlan) :
    (h.emitInterim geometry language now plan).steps = h.steps := by
  unfold Hearing.emitInterim
  split <;> rfl

theorem emitInterim_state (h : Hearing φ σ) (plan : ChunkPlan) :
    (h.emitInterim geometry language now plan).state = h.state := by
  unfold Hearing.emitInterim
  split <;> rfl

theorem emitFinal_steps (h : Hearing φ σ) :
    (h.emitFinal geometry language now).steps = h.steps := by
  unfold Hearing.emitFinal
  split
  · split <;> rfl
  · rfl

/-- A frame that was taken: its samples, the blocks made of what was pending,
the batch that the schedule offered, and the steps of the batch. -/
theorem onFrame_eq_ok {n : Nat} {t t' : Transcriber φ σ} {frame : AudioFrame} :
    onFrame m geometry language now n t frame = .ok t' ↔
      ∃ samples pending buffer schedule plans hearing,
        resampleTo16k frame.pcm frame.sample_rate = .ok samples ∧
        blockLoop m n ((t.pending ++ samples).length + 1) (t.pending ++ samples) t.buffer =
          some (pending, buffer) ∧
        t.schedule.offer buffer.available = some (schedule, plans) ∧
        runPlans m geometry language now buffer plans t.hearing = .ok hearing ∧
        t' = {
          buffer := if plans = [] then buffer else buffer.discardBefore schedule.retainFrom
          hearing, schedule, pending } := by
  unfold onFrame
  constructor
  · intro h
    obtain ⟨samples, hsamples, h⟩ := bind_eq_ok.mp h
    obtain ⟨⟨pending, buffer⟩, hloop, h⟩ := bind_eq_ok.mp h
    obtain ⟨⟨schedule, plans⟩, hoffer, h⟩ := bind_eq_ok.mp h
    obtain ⟨hearing, hrun, h⟩ := bind_eq_ok.mp h
    exact ⟨samples, pending, buffer, schedule, plans, hearing, mapError_eq_ok.mp hsamples,
      orDiverge_eq_ok.mp hloop, orDiverge_eq_ok.mp hoffer, hrun, (Except.ok.inj h).symm⟩
  · rintro ⟨samples, pending, buffer, schedule, plans, hearing, hsamples, hloop, hoffer, hrun, rfl⟩
    rw [hsamples]
    apply bind_eq_ok.mpr
    refine ⟨samples, rfl, bind_eq_ok.mpr ⟨(pending, buffer), orDiverge_eq_ok.mpr hloop, ?_⟩⟩
    refine bind_eq_ok.mpr ⟨(schedule, plans), orDiverge_eq_ok.mpr hoffer, ?_⟩
    exact bind_eq_ok.mpr ⟨hearing, hrun, rfl⟩

end

end lad_translate.stt_fastconformer
