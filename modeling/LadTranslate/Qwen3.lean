-- Qwen3-ASR as a streaming backend (adapters/stt_qwen3.py). The model is a
-- parameter. The laws say what it is fed, and what the hypotheses are, for
-- every way of cutting the audio into frames. The log lines are left out.
import LadTranslate.FastConformer
import LadTranslate.Feeds

open blocks fallible feeds

namespace lad_translate.stt_qwen3

open audio phrase_chunker
open stt_fastconformer (SAMPLE_RATE_16K resampleTo16k)

def QWEN_SAMPLE_RATE : Nat := SAMPLE_RATE_16K

/-- The model: a step on a segment of audio, and what its state says. -/
structure QwenModel (σ : Type) where
  streaming_transcribe : List ℚ → σ → Except String σ
  text : σ → Option String
  language : σ → Option String

/-- The adapter, with the streaming state once it is loaded. -/
structure Qwen3SttAdapter (σ : Type) where
  language : String := "en"
  chunk_size_s : ℚ := 1
  state : Option σ := none
  seq : Nat := 0
  audio_position : ℚ := 0

/-- `int(QWEN_SAMPLE_RATE * self.chunk_size_s)`. -/
def Qwen3SttAdapter.samplesPerStep {σ : Type} (a : Qwen3SttAdapter σ) : Nat :=
  ⌊QWEN_SAMPLE_RATE * a.chunk_size_s⌋.toNat

/-- The generator between two steps. The last two fields are histories: what the
model was fed, and what was yielded. -/
structure Listening (σ : Type) where
  state : σ
  seq : Nat
  audio_position : ℚ
  last_text : String
  fed : List (List ℚ)
  yielded : List Hypothesis

section

variable {σ : Type} (m : QwenModel σ) (now : Nat → ℚ) (a : Qwen3SttAdapter σ)

/-- `_feed`: one step of the model, and the text of its state. -/
def feed (w : Listening σ) (segment : List ℚ) : Except String (Listening σ × String) := do
  let state ← m.streaming_transcribe segment w.state
  return ({ w with state, fed := w.fed ++ [segment] }, strip ((m.text state).getD ""))

/-- `_hypothesis`, and the yield of it. `now` reads the wall clock for each one. -/
def hypothesis (w : Listening σ) (text : String) (is_final : Bool) : Listening σ :=
  let seq := w.seq + 1
  let language := (m.language w.state).getD ""
  { w with
    seq
    yielded := w.yielded ++ [{
      text
      is_final
      t_audio_start := 0
      t_audio_end := w.audio_position
      t_wall := now seq
      seq
      language := some (if language = "" then a.language else language) }] }

/-- The body of the loop: a segment is fed, and a text that moved is yielded. -/
def onSegment (w : Listening σ) (segment : List ℚ) : Except String (Listening σ) := do
  let (w, text) ← feed m w segment
  let w := { w with audio_position := w.audio_position + a.chunk_size_s }
  return if text ≠ "" ∧ text ≠ w.last_text then
    hypothesis m now a { w with last_text := text } text false
  else w

/-- The loop over the frames: each is converted and joins the buffer, and the
full segments are fed. A step of no samples never ends. -/
def onFrames : List AudioFrame → List ℚ → Listening σ →
    Option (Except String (List ℚ × Listening σ))
  | [], buffer, w => some (.ok (buffer, w))
  | frame :: frames, buffer, w =>
    match resampleTo16k frame.pcm frame.sample_rate with
    | .error text => some (.error text)
    | .ok samples =>
      let buffer := buffer ++ samples
      match drain a.samplesPerStep (onSegment m now a) (buffer.length + 1) buffer w with
      | none => none
      | some (.error text) => some (.error text)
      | some (.ok (buffer, w)) => onFrames frames buffer w

/-- What is left of the buffer is fed. -/
def feedRest (buffer : List ℚ) (w : Listening σ) : Except String (Listening σ) :=
  if buffer = [] then .ok w
  else do
    let (w, text) ← feed m w buffer
    let w := { w with audio_position := w.audio_position + (buffer.length : ℚ) / QWEN_SAMPLE_RATE }
    return if text ≠ "" then { w with last_text := text } else w

/-- The last text is final. -/
def emitFinal (w : Listening σ) : Listening σ :=
  if w.last_text ≠ "" then hypothesis m now a w w.last_text true else w

/-- End of stream. -/
def atEnd (buffer : List ℚ) (w : Listening σ) : Except String (Listening σ) :=
  (feedRest m buffer w).map (emitFinal m now a)

/-- Consume audio frames, yield hypotheses. Nothing when it never ends. -/
def transcribe (frames : List AudioFrame) : Option (Except String (Listening σ)) :=
  match a.state with
  | none => some (.error "use Qwen3SttAdapter as an async context manager")
  | some state =>
    (onFrames m now a frames [] ⟨state, a.seq, a.audio_position, "", [], []⟩).map fun listened =>
      listened >>= fun (buffer, w) => atEnd m now a buffer w

end

/-- The samples of each frame. -/
def convertFrames (frames : List AudioFrame) : Except String (List (List ℚ)) :=
  frames.mapM fun frame => resampleTo16k frame.pcm frame.sample_rate

section

variable {σ : Type} {m : QwenModel σ} {now : Nat → ℚ} {a : Qwen3SttAdapter σ}

/-- Frames that can be converted are fed as their samples. -/
theorem onFrames_eq {frames : List AudioFrame} {xs : List (List ℚ)}
    (hxs : convertFrames frames = .ok xs) (buffer : List ℚ) (w : Listening σ) :
    onFrames m now a frames buffer w = feedAll a.samplesPerStep (onSegment m now a) xs buffer w := by
  induction frames generalizing xs buffer w with
  | nil =>
    cases hxs
    rfl
  | cons frame frames ih =>
    rw [convertFrames, List.mapM_cons] at hxs
    obtain ⟨x, hx, hxs⟩ := bind_eq_ok.mp hxs
    obtain ⟨rest, hrest, hxs⟩ := bind_eq_ok.mp hxs
    cases hxs
    rw [onFrames, feedAll, hx]
    simp only
    cases drain a.samplesPerStep (onSegment m now a) ((buffer ++ x).length + 1) (buffer ++ x) w with
    | none => rfl
    | some result =>
      cases result with
      | error text => rfl
      | ok listened => exact ih hrest listened.1 listened.2

/-- The audio in one go: the full segments, and then what they leave. -/
def transcribeWhole (m : QwenModel σ) (now : Nat → ℚ) (a : Qwen3SttAdapter σ) (state : σ)
    (samples : List ℚ) : Except String (Listening σ) := do
  let w ← (fullBlocks a.samplesPerStep samples).foldlM (onSegment m now a)
    ⟨state, a.seq, a.audio_position, "", [], []⟩
  atEnd m now a (leftover a.samplesPerStep samples) w

/-- Frame by frame, or in one go. -/
theorem transcribe_eq (hstep : 0 < a.samplesPerStep) {state : σ} (hstate : a.state = some state)
    {frames : List AudioFrame} {xs : List (List ℚ)} (hxs : convertFrames frames = .ok xs) :
    transcribe m now a frames = some (transcribeWhole m now a state xs.flatten) := by
  have hempty : ([] : List ℚ).length < a.samplesPerStep := hstep
  unfold transcribe transcribeWhole
  rw [hstate]
  simp only
  rw [onFrames_eq hxs, feedAll_eq hstep xs hempty, List.nil_append, Option.map_some]
  cases (fullBlocks a.samplesPerStep xs.flatten).foldlM (onSegment m now a)
      ⟨state, a.seq, a.audio_position, "", [], []⟩ with
  | error text => rfl
  | ok w => rfl

/-- However the audio is cut into frames, the generator ends, with the same
hypotheses or with the same error. -/
theorem the_cuts_of_the_audio_change_nothing (m : QwenModel σ) (now : Nat → ℚ)
    (a : Qwen3SttAdapter σ) (hstep : 0 < a.samplesPerStep) {frames frames' : List AudioFrame}
    {xs ys : List (List ℚ)} (hxs : convertFrames frames = .ok xs)
    (hys : convertFrames frames' = .ok ys) (hsame : xs.flatten = ys.flatten) :
    transcribe m now a frames ≠ none ∧ transcribe m now a frames = transcribe m now a frames' := by
  cases hstate : a.state with
  | none =>
    unfold transcribe
    rw [hstate]
    exact ⟨by simp, rfl⟩
  | some state =>
    rw [transcribe_eq hstep hstate hxs, transcribe_eq hstep hstate hys, hsame]
    exact ⟨by simp, rfl⟩

/-! ## What is told -/

/-- What the model answers to each step, when it is fed these segments. -/
def answers (m : QwenModel σ) : σ → List (List ℚ) → Except String (List String)
  | _, [] => .ok []
  | state, segment :: segments => do
    let state ← m.streaming_transcribe segment state
    let texts ← answers m state segments
    return strip ((m.text state).getD "") :: texts

/-- The texts that are neither empty nor what was told last, each with its position. -/
def moves : String → List (String × ℚ) → List (String × ℚ)
  | _, [] => []
  | last, (text, position) :: rest =>
    if text ≠ "" ∧ text ≠ last then (text, position) :: moves text rest else moves last rest

/-- The positions after some steps of the same length. -/
def stepPositions (start chunk_size_s : ℚ) (steps : Nat) : List ℚ :=
  (List.range steps).map fun k : Nat => start + (k + 1 : ℚ) * chunk_size_s

/-- The last text that is not empty. -/
def lastText (texts : List String) : Option String := (texts.filter (· ≠ "")).getLast?

/-- What a hypothesis says of the audio. -/
def told (h : Hypothesis) : Bool × String × ℚ := (h.is_final, h.text, h.t_audio_end)

/-- The hypotheses tell what the model answered: the texts that moved after the full
steps as interims, at the positions of their steps, and the last text of all as
the final, at the end. -/
def Tells (m : QwenModel σ) (a : Qwen3SttAdapter σ) (steps : Nat) (w : Listening σ) : Prop :=
  ∃ state texts, a.state = some state ∧ answers m state w.fed = .ok texts ∧
    w.yielded.map told =
      (moves "" ((texts.take steps).zip (stepPositions a.audio_position a.chunk_size_s steps))).map
          (fun p => (false, p.1, p.2)) ++
        (lastText texts).toList.map fun text => (true, text, w.audio_position)

theorem stepPositions_succ (start chunk_size_s : ℚ) (steps : Nat) :
    stepPositions start chunk_size_s (steps + 1) =
      (start + chunk_size_s) :: stepPositions (start + chunk_size_s) chunk_size_s steps := by
  unfold stepPositions
  rw [List.range_succ_eq_map, List.map_cons, List.map_map]
  congr 1
  · simp
  · refine List.map_congr_left fun k _ => ?_
    simp only [Function.comp_apply, Nat.succ_eq_add_one]
    push_cast
    ring

theorem lastText_cons (text : String) (texts : List String) (last : String) :
    (lastText (text :: texts)).getD last = (lastText texts).getD (if text ≠ "" then text else last) := by
  unfold lastText
  by_cases htext : text ≠ ""
  · rw [List.filter_cons_of_pos (by simpa using htext), if_pos htext, List.getLast?_cons,
      Option.getD_some]
  · rw [List.filter_cons_of_neg (by simpa using htext), if_neg htext]

theorem lastText_snoc (texts : List String) (text : String) :
    (lastText (texts ++ [text])).getD "" =
      if text ≠ "" then text else (lastText texts).getD "" := by
  unfold lastText
  rw [List.filter_append]
  by_cases htext : text ≠ ""
  · rw [List.filter_cons_of_pos (by simpa using htext), if_pos htext, List.filter_nil,
      List.getLast?_concat, Option.getD_some]
  · rw [List.filter_cons_of_neg (by simpa using htext), if_neg htext, List.filter_nil,
      List.append_nil]

/-- There is a last text exactly when it is not empty. -/
theorem lastText_eq (texts : List String) :
    lastText texts =
      if (lastText texts).getD "" ≠ "" then some ((lastText texts).getD "") else none := by
  cases hlast : lastText texts with
  | none => rfl
  | some text =>
    have hmem := List.mem_of_getLast? hlast
    have htext : text ≠ "" := by simpa using (List.mem_filter.mp hmem).2
    rw [Option.getD_some, if_pos htext]

/-- One segment: the answer of the model, and what is told of it. -/
theorem onSegment_tells {w w' : Listening σ} {segment : List ℚ}
    (h : onSegment m now a w segment = .ok w') :
    ∃ text, m.streaming_transcribe segment w.state = .ok w'.state ∧
      text = strip ((m.text w'.state).getD "") ∧ w'.fed = w.fed ++ [segment] ∧
      w'.audio_position = w.audio_position + a.chunk_size_s ∧
      w'.last_text = (if text ≠ "" then text else w.last_text) ∧
      w'.yielded.map told = w.yielded.map told ++
        if text ≠ "" ∧ text ≠ w.last_text then [(false, text, w.audio_position + a.chunk_size_s)]
        else [] := by
  obtain ⟨⟨v, text⟩, hfeed, h⟩ := bind_eq_ok.mp h
  obtain ⟨state, hstate, hv⟩ := bind_eq_ok.mp hfeed
  cases hv
  cases h
  refine ⟨strip ((m.text state).getD ""), ?_⟩
  generalize htext : strip ((m.text state).getD "") = text
  by_cases hmoved : text ≠ "" ∧ text ≠ w.last_text
  · simp [hmoved, hstate, htext, hypothesis, told]
  · simp only [if_neg hmoved]
    refine ⟨hstate, htext.symm, trivial, trivial, ?_, by simp⟩
    by_cases hsome : text ≠ ""
    · rw [if_pos hsome]
      by_contra hne
      exact hmoved ⟨hsome, Ne.symm hne⟩
    · rw [if_neg hsome]

/-- The full segments: the answers of the model, and what is told of them. -/
theorem segments_tell {segments : List (List ℚ)} {w w' : Listening σ}
    (h : segments.foldlM (onSegment m now a) w = .ok w') :
    ∃ texts, texts.length = segments.length ∧
      (∀ more texts', answers m w'.state more = .ok texts' →
        answers m w.state (segments ++ more) = .ok (texts ++ texts')) ∧
      w'.last_text = (lastText texts).getD w.last_text ∧
      w'.yielded.map told = w.yielded.map told ++
        (moves w.last_text
          (texts.zip (stepPositions w.audio_position a.chunk_size_s segments.length))).map
            fun p => (false, p.1, p.2) := by
  induction segments generalizing w with
  | nil =>
    cases h
    exact ⟨[], rfl, fun more texts' hmore => hmore, rfl, by simp [moves]⟩
  | cons segment segments ih =>
    rw [List.foldlM_cons] at h
    obtain ⟨v, hv, h⟩ := bind_eq_ok.mp h
    obtain ⟨text, hstate, htext, -, hposition, hlast, htold⟩ := onSegment_tells hv
    obtain ⟨texts, hlength, hanswers, hlast', htold'⟩ := ih h
    refine ⟨text :: texts, by rw [List.length_cons, List.length_cons, hlength], ?_, ?_, ?_⟩
    · intro more texts' hmore
      rw [List.cons_append, answers, hstate]
      apply bind_eq_ok.mpr
      refine ⟨v.state, rfl, bind_eq_ok.mpr ⟨texts ++ texts', hanswers more texts' hmore, ?_⟩⟩
      rw [htext]
      rfl
    · rw [hlast', hlast, lastText_cons]
    · rw [htold', htold, hposition, hlast, List.length_cons, stepPositions_succ, List.zip_cons_cons,
        moves, List.append_assoc]
      congr 1
      by_cases hmoved : text ≠ "" ∧ text ≠ w.last_text
      · rw [if_pos hmoved, if_pos hmoved, if_pos hmoved.1]
        rfl
      · rw [if_neg hmoved, if_neg hmoved, List.nil_append]
        by_cases hsome : text ≠ ""
        · have hsame : text = w.last_text := by
            by_contra hne
            exact hmoved ⟨hsome, hne⟩
          rw [if_pos hsome, hsame]
        · rw [if_neg hsome]

theorem emitFinal_fed (w : Listening σ) : (emitFinal m now a w).fed = w.fed := by
  unfold emitFinal
  split <;> rfl

theorem emitFinal_position (w : Listening σ) :
    (emitFinal m now a w).audio_position = w.audio_position := by
  unfold emitFinal
  split <;> rfl

/-- The final tells the last text, at the end. -/
theorem emitFinal_told {w : Listening σ} (texts : List String)
    (hlast : w.last_text = (lastText texts).getD "") :
    (emitFinal m now a w).yielded.map told = w.yielded.map told ++
      (lastText texts).toList.map fun text => (true, text, w.audio_position) := by
  rw [lastText_eq, ← hlast]
  unfold emitFinal
  by_cases hsome : w.last_text ≠ ""
  · rw [if_pos hsome, if_pos hsome]
    simp [hypothesis, told]
  · rw [if_neg hsome, if_neg hsome]
    simp

/-- The end of the stream: the rest of the audio, and the final. -/
theorem atEnd_tells {state : σ} (hstate : a.state = some state) {segments : List (List ℚ)}
    {v w : Listening σ}
    (hv : segments.foldlM (onSegment m now a) ⟨state, a.seq, a.audio_position, "", [], []⟩ = .ok v)
    (hfed : v.fed = segments) {buffer : List ℚ} (hw : atEnd m now a buffer v = .ok w) :
    Tells m a segments.length w := by
  obtain ⟨texts, hlength, hanswers, hlast, htold⟩ := segments_tell hv
  obtain ⟨u, hu, rfl⟩ := map_eq_ok.mp hw
  unfold feedRest at hu
  by_cases hnone : buffer = []
  · rw [if_pos hnone] at hu
    cases hu
    refine ⟨state, texts, hstate, ?_, ?_⟩
    · have hall := hanswers [] [] rfl
      rw [List.append_nil, List.append_nil] at hall
      rw [emitFinal_fed, hfed, hall]
    · rw [emitFinal_told texts hlast, htold, ← hlength, List.take_length, emitFinal_position]
      rfl
  · rw [if_neg hnone] at hu
    obtain ⟨⟨v', text⟩, hfeed, hu⟩ := bind_eq_ok.mp hu
    obtain ⟨state', hstep, hv'⟩ := bind_eq_ok.mp hfeed
    cases hv'
    cases hu
    have hrest : answers m v.state [buffer] = .ok [strip ((m.text state').getD "")] := by
      rw [answers, hstep]
      rfl
    generalize strip ((m.text state').getD "") = text at hrest
    refine ⟨state, texts ++ [text], hstate, ?_, ?_⟩
    · rw [emitFinal_fed]
      by_cases htext : text ≠ ""
      · rw [if_pos htext, hfed]
        exact hanswers _ _ hrest
      · rw [if_neg htext, hfed]
        exact hanswers _ _ hrest
    · rw [emitFinal_position, emitFinal_told (texts ++ [text]) ?_]
      · by_cases htext : text ≠ ""
        · rw [if_pos htext, htold, ← hlength, List.take_left]
          rfl
        · rw [if_neg htext, htold, ← hlength, List.take_left]
          rfl
      · rw [lastText_snoc]
        by_cases htext : text ≠ ""
        · rw [if_pos htext, if_pos htext]
        · rw [if_neg htext, if_neg htext]
          exact hlast

/-! ## The hypotheses -/

/-- What the generator has yielded, in the loop. -/
structure Told (a : Qwen3SttAdapter σ) (w : Listening σ) : Prop where
  interims : ∀ h ∈ w.yielded, h.is_final = false ∧ h.text ≠ ""
  moved : (w.yielded.map (·.text)).IsChain (· ≠ ·)
  last : ((w.yielded.map (·.text)).getLast?).getD "" = w.last_text
  seq : w.seq = a.seq + w.yielded.length
  seqs : w.yielded.map (·.seq) = List.range' (a.seq + 1) w.yielded.length
  position : w.audio_position = a.audio_position + w.fed.length * a.chunk_size_s
  ordered : (w.yielded.map (·.t_audio_end)).Pairwise (· ≤ ·)
  heard : ∀ h ∈ w.yielded, h.t_audio_end ≤ w.audio_position

theorem chunk_size_pos (hstep : 0 < a.samplesPerStep) : 0 < a.chunk_size_s := by
  unfold Qwen3SttAdapter.samplesPerStep at hstep
  have hfloor : 0 < ⌊(QWEN_SAMPLE_RATE : ℚ) * a.chunk_size_s⌋ := by omega
  have hone : (1 : ℚ) ≤ QWEN_SAMPLE_RATE * a.chunk_size_s := by
    have hle := Int.floor_le ((QWEN_SAMPLE_RATE : ℚ) * a.chunk_size_s)
    have hcast : (1 : ℚ) ≤ (⌊(QWEN_SAMPLE_RATE : ℚ) * a.chunk_size_s⌋ : ℚ) := by
      exact_mod_cast hfloor
    exact hcast.trans hle
  by_contra hle
  have hrate : (0 : ℚ) ≤ QWEN_SAMPLE_RATE := Nat.cast_nonneg _
  have hneg := mul_nonpos_of_nonneg_of_nonpos hrate (not_lt.mp hle)
  linarith

theorem feed_eq_ok {w w' : Listening σ} {segment : List ℚ} {text : String}
    (h : feed m w segment = .ok (w', text)) :
    ∃ state, w' = { w with state, fed := w.fed ++ [segment] } := by
  obtain ⟨state, -, h⟩ := bind_eq_ok.mp h
  cases h
  exact ⟨state, rfl⟩

/-- A hypothesis more, with a text that moved, at the present position. -/
theorem Told.hypothesis {w : Listening σ} (h : Told a w) {text : String} (hne : text ≠ "")
    (hmoved : text ≠ w.last_text) :
    Told a (hypothesis m now a { w with last_text := text } text false) := by
  refine ⟨?_, ?_, ?_, ?_, ?_, h.position, ?_, ?_⟩
  · intro hyp hhyp
    rcases List.mem_append.mp hhyp with hhyp | hhyp
    · exact h.interims hyp hhyp
    · rw [List.mem_singleton.mp hhyp]
      exact ⟨rfl, hne⟩
  · have hlast := h.last
    simp only [stt_qwen3.hypothesis, List.map_append, List.map_cons, List.map_nil]
    rw [List.isChain_append]
    refine ⟨h.moved, List.isChain_singleton _, ?_⟩
    intro x hx y hy
    rw [List.head?_cons, Option.mem_some_iff] at hy
    rw [Option.mem_def] at hx
    rw [hx, Option.getD_some] at hlast
    rw [hlast, ← hy]
    exact Ne.symm hmoved
  · simp [stt_qwen3.hypothesis]
  · simp only [stt_qwen3.hypothesis, List.length_append, List.length_singleton, h.seq]
    omega
  · simp only [stt_qwen3.hypothesis, List.map_append, List.map_cons, List.map_nil,
      List.length_append, List.length_singleton, h.seqs, h.seq]
    rw [List.range'_concat]
    congr 2
    omega
  · simp only [stt_qwen3.hypothesis, List.map_append, List.map_cons, List.map_nil]
    rw [List.pairwise_append]
    refine ⟨h.ordered, List.pairwise_singleton _ _, ?_⟩
    intro x hx y hy
    obtain ⟨hyp, hhyp, rfl⟩ := List.mem_map.mp hx
    rw [List.mem_singleton.mp hy]
    exact h.heard hyp hhyp
  · intro hyp hhyp
    rcases List.mem_append.mp hhyp with hhyp | hhyp
    · exact h.heard hyp hhyp
    · rw [List.mem_singleton.mp hhyp]
      exact le_rfl

theorem told_onSegment (hchunk : 0 ≤ a.chunk_size_s) {w w' : Listening σ} (h : Told a w)
    {segment : List ℚ} (hw : onSegment m now a w segment = .ok w') :
    Told a w' ∧ w'.fed = w.fed ++ [segment] := by
  obtain ⟨⟨v, text⟩, hfeed, hw⟩ := bind_eq_ok.mp hw
  obtain ⟨state, rfl⟩ := feed_eq_ok hfeed
  have hlater : Told a { w with
      state, fed := w.fed ++ [segment], audio_position := w.audio_position + a.chunk_size_s } := by
    refine { h with position := ?_, heard := fun hyp hhyp => ?_ }
    · simp only [h.position, List.length_append, List.length_singleton]
      push_cast
      ring
    · have hbefore := h.heard hyp hhyp
      have hafter : hyp.t_audio_end ≤ w.audio_position + a.chunk_size_s := by linarith
      exact hafter
  cases hw
  by_cases hmoved : text ≠ "" ∧ text ≠ w.last_text
  · rw [if_pos hmoved]
    exact ⟨hlater.hypothesis hmoved.1 hmoved.2, rfl⟩
  · rw [if_neg hmoved]
    exact ⟨hlater, rfl⟩

theorem told_fresh (a : Qwen3SttAdapter σ) (state : σ) :
    Told a ⟨state, a.seq, a.audio_position, "", [], []⟩ where
  interims := by simp
  moved := List.isChain_nil
  last := rfl
  seq := rfl
  seqs := rfl
  position := by simp
  ordered := List.Pairwise.nil
  heard := by simp

/-- The full segments are fed in order. -/
theorem told_segments (hchunk : 0 ≤ a.chunk_size_s) {state : σ} {segments : List (List ℚ)}
    {w : Listening σ} (hw : segments.foldlM (onSegment m now a)
      ⟨state, a.seq, a.audio_position, "", [], []⟩ = .ok w) :
    Told a w ∧ w.fed = segments := by
  refine foldlM_induction (P := fun segments w => Told a w ∧ w.fed = segments) ?_
    ⟨told_fresh a state, rfl⟩ hw
  rintro segments v segment v' ⟨hv, hfed⟩ hstep
  obtain ⟨hv', hfed'⟩ := told_onSegment hchunk hv hstep
  exact ⟨hv', by rw [hfed', hfed]⟩

/-- The hypotheses of a whole run: interims, and then a final with the last text
when there is one. -/
structure Transcript (a : Qwen3SttAdapter σ) (w : Listening σ) : Prop where
  texts : ∀ h ∈ w.yielded, h.text ≠ ""
  interims : ∀ h ∈ w.yielded.dropLast, h.is_final = false
  moved : (w.yielded.dropLast.map (·.text)).IsChain (· ≠ ·)
  final : ∀ h ∈ w.yielded.getLast?, h.is_final = true ∧ h.text = w.last_text ∧
    h.t_audio_end = w.audio_position
  silent : w.yielded = [] ↔ w.last_text = ""
  seqs : w.yielded.map (·.seq) = List.range' (a.seq + 1) w.yielded.length
  ordered : (w.yielded.map (·.t_audio_end)).Pairwise (· ≤ ·)

/-- The final, after the interims and what was left of the audio. -/
theorem transcript_of_told {w : Listening σ} (h : Told a w) {state : σ} {fed : List (List ℚ)}
    {audio_position : ℚ} (hposition : w.audio_position ≤ audio_position) {last_text : String}
    (hlast : last_text = "" → w.yielded = []) :
    Transcript a (emitFinal m now a { w with state, fed, audio_position, last_text }) := by
  unfold emitFinal
  by_cases hsome : last_text ≠ ""
  · rw [if_pos hsome]
    refine ⟨?_, ?_, ?_, ?_, ?_, ?_, ?_⟩
    · intro hyp hhyp
      rcases List.mem_append.mp hhyp with hhyp | hhyp
      · exact (h.interims hyp hhyp).2
      · rw [List.mem_singleton.mp hhyp]
        exact hsome
    · simp only [stt_qwen3.hypothesis, List.dropLast_concat]
      exact fun hyp hhyp => (h.interims hyp hhyp).1
    · simp only [stt_qwen3.hypothesis, List.dropLast_concat]
      exact h.moved
    · simp only [stt_qwen3.hypothesis, List.getLast?_concat, Option.mem_def, Option.some.injEq]
      rintro hyp rfl
      exact ⟨rfl, rfl, rfl⟩
    · simpa [stt_qwen3.hypothesis] using hsome
    · simp only [stt_qwen3.hypothesis, List.map_append, List.map_cons, List.map_nil,
        List.length_append, List.length_singleton, h.seqs, h.seq]
      rw [List.range'_concat]
      congr 2
      omega
    · simp only [stt_qwen3.hypothesis, List.map_append, List.map_cons, List.map_nil]
      rw [List.pairwise_append]
      refine ⟨h.ordered, List.pairwise_singleton _ _, ?_⟩
      intro x hx y hy
      obtain ⟨hyp, hhyp, rfl⟩ := List.mem_map.mp hx
      rw [List.mem_singleton.mp hy]
      exact (h.heard hyp hhyp).trans hposition
  · have hnone := hlast (not_not.mp hsome)
    rw [if_neg hsome]
    exact ⟨by simp [hnone], by simp [hnone], by simp [hnone], by simp [hnone],
      by simpa [hnone] using not_not.mp hsome, by simp [hnone], by simp [hnone]⟩

/-- The interims are over when the last text is none. -/
theorem Told.silent {w : Listening σ} (h : Told a w) (hnone : w.last_text = "") : w.yielded = [] := by
  rcases List.eq_nil_or_concat w.yielded with hnil | ⟨hyps, hyp, hconcat⟩
  · exact hnil
  · have hlast := h.last
    rw [List.concat_eq_append] at hconcat
    rw [hconcat, List.map_append, List.map_cons, List.map_nil, List.getLast?_concat,
      Option.getD_some, hnone] at hlast
    have hmem : hyp ∈ w.yielded := by
      rw [hconcat]
      simp
    exact absurd hlast (h.interims hyp hmem).2

/-- The model is fed every sample once, in order, in steps of the same length and
a shorter last one, the hypotheses tell what it answered, each at the position of
its step, and the transcript ends where the audio does. -/
theorem every_sample_is_fed_once_and_told_in_order (m : QwenModel σ) (now : Nat → ℚ)
    (a : Qwen3SttAdapter σ) (hstep : 0 < a.samplesPerStep) {frames : List AudioFrame}
    {xs : List (List ℚ)} (hxs : convertFrames frames = .ok xs) {w : Listening σ}
    (hw : transcribe m now a frames = some (.ok w)) :
    w.fed = pieces a.samplesPerStep xs.flatten ∧
      Tells m a (xs.flatten.length / a.samplesPerStep) w ∧ Transcript a w ∧
      w.audio_position = a.audio_position +
        (xs.flatten.length / a.samplesPerStep : Nat) * a.chunk_size_s +
        (xs.flatten.length % a.samplesPerStep : Nat) / QWEN_SAMPLE_RATE := by
  have hchunk := (chunk_size_pos hstep).le
  obtain ⟨state, hstate⟩ : ∃ state, a.state = some state := by
    cases hstate : a.state with
    | none =>
      rw [transcribe, hstate] at hw
      cases hw
    | some state => exact ⟨state, rfl⟩
  rw [transcribe_eq hstep hstate hxs, Option.some.injEq] at hw
  obtain ⟨v, hv, hend⟩ := bind_eq_ok.mp hw
  obtain ⟨htold, hfed⟩ := told_segments hchunk hv
  have hcount : (fullBlocks a.samplesPerStep xs.flatten).length =
      xs.flatten.length / a.samplesPerStep := by
    rw [fullBlocks, List.length_map, List.length_range]
  have hsteps : (v.fed.length : ℚ) = (xs.flatten.length / a.samplesPerStep : Nat) := by
    rw [hfed, hcount]
  have hleft : (leftover a.samplesPerStep xs.flatten).length =
      xs.flatten.length % a.samplesPerStep := by
    rw [leftover, List.length_drop, Nat.mod_eq_sub_div_mul]
  have hposition := htold.position
  rw [hsteps] at hposition
  have htells := hcount ▸ atEnd_tells hstate hv hfed hend
  suffices hrest : w.fed = pieces a.samplesPerStep xs.flatten ∧ Transcript a w ∧
      w.audio_position = a.audio_position +
        (xs.flatten.length / a.samplesPerStep : Nat) * a.chunk_size_s +
        (xs.flatten.length % a.samplesPerStep : Nat) / QWEN_SAMPLE_RATE from
    ⟨hrest.1, htells, hrest.2⟩
  obtain ⟨u, hu, rfl⟩ := map_eq_ok.mp hend
  rw [emitFinal_fed, emitFinal_position, ← hleft, ← hposition]
  unfold feedRest at hu
  by_cases hnone : leftover a.samplesPerStep xs.flatten = []
  · rw [if_pos hnone] at hu
    cases hu
    refine ⟨?_, transcript_of_told htold le_rfl htold.silent, ?_⟩
    · rw [hfed, pieces, if_pos hnone, List.append_nil]
    · rw [hnone, List.length_nil, Nat.cast_zero, zero_div, add_zero]
  · rw [if_neg hnone] at hu
    obtain ⟨⟨v', text⟩, hfeed, hu⟩ := bind_eq_ok.mp hu
    obtain ⟨state, rfl⟩ := feed_eq_ok hfeed
    have hlater : v.audio_position ≤ v.audio_position +
        ((leftover a.samplesPerStep xs.flatten).length : ℚ) / QWEN_SAMPLE_RATE := by
      have hnonneg : (0 : ℚ) ≤
          ((leftover a.samplesPerStep xs.flatten).length : ℚ) / QWEN_SAMPLE_RATE := by positivity
      linarith
    have hfed' : v.fed ++ [leftover a.samplesPerStep xs.flatten] =
        pieces a.samplesPerStep xs.flatten := by
      rw [hfed, pieces, if_neg hnone]
    cases hu
    by_cases htext : text ≠ ""
    · simp only [if_pos htext, and_true]
      exact ⟨hfed', transcript_of_told htold hlater fun h => absurd h htext⟩
    · simp only [if_neg htext, and_true]
      exact ⟨hfed', transcript_of_told htold hlater htold.silent⟩

end

/-! ## Five samples -/

/-- A model whose text is how many samples it was fed in all. -/
def countingModel : QwenModel Nat where
  streaming_transcribe segment n := .ok (n + segment.length)
  text n := some (toString n)
  language _ := none

/-- Two samples a step. -/
def twoByTwo : Qwen3SttAdapter Nat := { chunk_size_s := 2 / 16000, state := some 0 }

theorem sample_rate_16k_pos : 0 < SAMPLE_RATE_16K := by decide

/-- Silent frames of some samples, at 16 kHz. -/
def silence (n : Nat) : AudioFrame :=
  ⟨List.replicate (2 * n) 0, SAMPLE_RATE_16K, sample_rate_16k_pos, 0, 0⟩

theorem silence_converted :
    convertFrames [silence 3, silence 2] = .ok [[0, 0, 0], [0, 0]] ∧
      convertFrames [silence 1, silence 4] = .ok [[0], [0, 0, 0, 0]] := by
  decide +kernel

theorem five_samples_told :
    ((transcribe countingModel (fun n => n) twoByTwo [silence 3, silence 2]).bind
      Except.toOption).map (fun w => (w.fed.map List.length, w.yielded.map (·.text))) =
      some ([2, 2, 1], ["2", "4", "5"]) := by
  decide +kernel

theorem two_cuts_of_five_samples :
    transcribe countingModel (fun n => n) twoByTwo [silence 3, silence 2] =
      transcribe countingModel (fun n => n) twoByTwo [silence 1, silence 4] :=
  (the_cuts_of_the_audio_change_nothing countingModel (fun n => n) twoByTwo (by decide +kernel)
    silence_converted.1 silence_converted.2 rfl).2

theorem five_samples_are_fed_once :
    ∃ w, transcribe countingModel (fun n => n) twoByTwo [silence 3, silence 2] = some (.ok w) ∧
      w.yielded.map (·.text) = ["2", "4", "5"] ∧ w.fed = [[0, 0], [0, 0], [0]] ∧
      Tells countingModel twoByTwo 2 w ∧ Transcript twoByTwo w := by
  obtain ⟨w, hw, hvalues⟩ := Option.map_eq_some_iff.mp five_samples_told
  obtain ⟨result, hresult, hok⟩ := Option.bind_eq_some_iff.mp hw
  obtain rfl := toOption_eq_some.mp hok
  obtain ⟨hfed, htells, htranscript, -⟩ := every_sample_is_fed_once_and_told_in_order countingModel
    (fun n => n) twoByTwo (by decide +kernel) silence_converted.1 hresult
  refine ⟨w, hresult, (Prod.mk.inj hvalues).2, hfed.trans (by decide +kernel), ?_, htranscript⟩
  have hsteps : [[0, 0, 0], [(0 : ℚ), 0]].flatten.length / twoByTwo.samplesPerStep = 2 := by
    decide +kernel
  exact hsteps ▸ htells

end lad_translate.stt_qwen3
