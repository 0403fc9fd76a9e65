-- The windows of the sliding window adapter: what one frame can do to it, and
-- where in the delivered frames the window of each hypothesis begins and ends.
import LadTranslate.Fallible
import LadTranslate.SourceTime
import LadTranslate.Whisper

open fallible lad_translate.audio lad_translate.source_time

namespace lad_translate.stt_whisper

open stt_fastconformer (SAMPLE_RATE_16K resampleTo16k)

variable [CaseTable] (m : WhisperModel) (now : Nat → ℚ) {w w' : Listening}

/-! ## What a frame does -/

/-- With the frame in the buffer, the adapter waits for its timer, or a pass
gives no text to send, or it yields an interim, or a final that closes the
utterance. -/
inductive Heard (w : Listening) (frame : AudioFrame) : Listening → Prop
  | waits (hearly : frame.t_wall < w.next_emit) (hloud : ¬ w.adapter.Quiet)
      (hshort : ¬ w.adapter.Overlong) : Heard w frame w
  | silent {asks : Nat} (hpass : w.adapter.transcribeBuffer m w.asks = ("", asks))
      (hloud : ¬ w.adapter.Quiet) :
      Heard w frame { w with next_emit := frame.t_wall + w.adapter.emit_interval, asks }
  | interim {text : String} {asks : Nat} (hpass : w.adapter.transcribeBuffer m w.asks = (text, asks))
      (htext : text ≠ "") (hloud : ¬ w.adapter.Quiet) (hshort : ¬ w.adapter.Overlong) :
      Heard w frame ({ w with
        next_emit := frame.t_wall + w.adapter.emit_interval, asks }.yields now text false)
  | final {text : String} {asks : Nat} (hpass : w.adapter.transcribeBuffer m w.asks = (text, asks))
      (htext : text ≠ "" ∨ w.adapter.Quiet) (hover : w.adapter.Quiet ∨ w.adapter.Overlong) :
      Heard w frame
        { { w with
            next_emit := frame.t_wall + w.adapter.emit_interval, asks }.yields now text true with
          adapter := { w.adapter with seq := w.adapter.seq + 1 }.close text }

theorem onAudio_heard (w : Listening) (frame : AudioFrame) (audio : List ℚ) :
    Heard m now (w.receives frame audio) frame (onAudio m now w frame audio) := by
  unfold onAudio
  generalize w.receives frame audio = r
  simp only
  by_cases hover : r.adapter.Quiet ∨ r.adapter.Overlong
  · rw [if_neg (fun h => hover.elim h.2.1 h.2.2)]
    generalize hpass : r.adapter.transcribeBuffer m r.asks = pass
    obtain ⟨text, asks⟩ := pass
    simp only
    by_cases hnothing : text = "" ∧ ¬ r.adapter.Quiet
    · rw [if_pos hnothing]
      exact .silent (hnothing.1 ▸ hpass) hnothing.2
    · rw [if_neg hnothing, decide_eq_true hover]
      refine .final hpass ?_ hover
      by_cases htext : text = ""
      · exact .inr (Decidable.not_not.mp fun hloud => hnothing ⟨htext, hloud⟩)
      · exact .inl htext
  · obtain ⟨hloud, hshort⟩ := not_or.mp hover
    by_cases hearly : frame.t_wall < r.next_emit
    · rw [if_pos ⟨hearly, hloud, hshort⟩]
      exact .waits hearly hloud hshort
    · rw [if_neg (fun h => hearly h.1)]
      generalize hpass : r.adapter.transcribeBuffer m r.asks = pass
      obtain ⟨text, asks⟩ := pass
      simp only
      by_cases htext : text = ""
      · rw [if_pos ⟨htext, hloud⟩]
        exact .silent (htext ▸ hpass) hloud
      · rw [if_neg (fun h => htext h.1), decide_eq_false hover]
        exact .interim hpass htext hloud hshort

/-! ## Where the windows are -/

/-- A window of so many samples begins after so many delivered frames, at the
start of the next one, and it goes through the frames from there on. -/
def OpensAt (frames : List AudioFrame) (opened samples : Nat) (audio_end : ℚ) : Prop :=
  ∃ frame rest, frames.drop opened = frame :: rest ∧ samples ≤ convertedAll (frame :: rest) ∧
    audio_end = frame.t_audio + samples / (SAMPLE_RATE_16K : ℚ)

omit [CaseTable] in
theorem OpensAt.append {frames : List AudioFrame} {opened samples : Nat} {audio_end : ℚ}
    (h : OpensAt frames opened samples audio_end) (more : List AudioFrame) :
    OpensAt (frames ++ more) opened samples audio_end := by
  obtain ⟨frame, rest, hdrop, hsamples, hend⟩ := h
  have hopened : opened ≤ frames.length := by
    by_contra hbeyond
    rw [List.drop_eq_nil_of_le (by omega)] at hdrop
    cases hdrop
  refine ⟨frame, rest ++ more, ?_, ?_, hend⟩
  · rw [List.drop_append_of_le_length hopened, hdrop, List.cons_append]
  · rw [← List.cons_append, convertedAll_append]
    omega

/-- After some frames, the buffer is what they gave since its window began, and
every hypothesis has its window among them. -/
structure Windowed (frames : List AudioFrame) (w : Listening) : Prop where
  heard : w.heard = frames.length
  window : w.adapter.buffer ≠ [] → ∃ frame rest, frames.drop w.opened = frame :: rest ∧
    w.adapter.buffer.length = convertedAll (frame :: rest) ∧
    w.adapter.buffer_start_audio = frame.t_audio
  passes : ∀ pass ∈ w.passes,
    OpensAt frames pass.opened pass.window.length pass.hypothesis.t_audio_end

section

variable {frames : List AudioFrame} {frame : AudioFrame} {audio : List ℚ}

omit [CaseTable] in
theorem receive_eq (a : WhisperSttAdapter) (frame : AudioFrame) (audio : List ℚ) :
    ∃ quiet_for, a.receive frame audio = { a with
      buffer := a.buffer ++ audio, quiet_for
      buffer_start_audio := if a.buffer.length = 0 then frame.t_audio else a.buffer_start_audio } := by
  unfold WhisperSttAdapter.receive WhisperSttAdapter.trackSilence
  split <;> split <;> exact ⟨_, rfl⟩

omit [CaseTable] in
/-- With the next frame in the buffer, the buffer is a window of the frames. -/
theorem opensAt_receives (hw : Windowed frames w) (hconverted : converted frame = audio.length) :
    let r := w.receives frame audio
    (∃ first rest, (frames ++ [frame]).drop r.opened = first :: rest ∧
      r.adapter.buffer.length = convertedAll (first :: rest) ∧
      r.adapter.buffer_start_audio = first.t_audio) ∧
    OpensAt (frames ++ [frame]) r.opened r.adapter.buffer.length r.adapter.currentAudioEnd := by
  intro r
  obtain ⟨quiet_for, heq⟩ := receive_eq w.adapter frame audio
  have hadapter : r.adapter = w.adapter.receive frame audio := rfl
  rw [heq] at hadapter
  have hopened : r.opened = if w.adapter.buffer.length = 0 then w.heard else w.opened := rfl
  have hwindow : ∃ first rest, (frames ++ [frame]).drop r.opened = first :: rest ∧
      r.adapter.buffer.length = convertedAll (first :: rest) ∧
      r.adapter.buffer_start_audio = first.t_audio := by
    rw [hadapter, hopened]
    by_cases hempty : w.adapter.buffer.length = 0
    · refine ⟨frame, [], ?_, ?_, ?_⟩
      · rw [if_pos hempty, hw.heard, List.drop_left]
      · simp only [List.length_append, hempty, convertedAll_cons, hconverted]
        rw [Nat.zero_add]
        rfl
      · simp only [if_pos hempty]
    · have hne : w.adapter.buffer ≠ [] := fun hnil => hempty (by rw [hnil]; rfl)
      obtain ⟨first, rest, hdrop, hlength, hstart⟩ := hw.window hne
      have hle : w.opened ≤ frames.length := by
        by_contra hbeyond
        rw [List.drop_eq_nil_of_le (by omega)] at hdrop
        cases hdrop
      refine ⟨first, rest ++ [frame], ?_, ?_, ?_⟩
      · rw [if_neg hempty, List.drop_append_of_le_length hle, hdrop, List.cons_append]
      · rw [← List.cons_append, convertedAll_append, convertedAll_cons frame, hconverted,
          ← hlength, List.length_append]
        rfl
      · simp only [if_neg hempty]
        exact hstart
  refine ⟨hwindow, ?_⟩
  obtain ⟨first, rest, hdrop, hlength, hstart⟩ := hwindow
  refine ⟨first, rest, hdrop, hlength.le, ?_⟩
  rw [WhisperSttAdapter.currentAudioEnd, hstart]
  rfl

theorem windowed_onAudio (hw : Windowed frames w) (hconverted : converted frame = audio.length) :
    Windowed (frames ++ [frame]) (onAudio m now w frame audio) := by
  obtain ⟨hwindow, hopens⟩ := opensAt_receives hw hconverted
  have hheard : (w.receives frame audio).heard = (frames ++ [frame]).length := by
    rw [List.length_append, ← hw.heard]
    rfl
  have hold : ∀ pass ∈ w.passes, OpensAt (frames ++ [frame]) pass.opened pass.window.length
      pass.hypothesis.t_audio_end := fun pass hpass => (hw.passes pass hpass).append [frame]
  have hpasses : (w.receives frame audio).passes = w.passes := rfl
  have h := onAudio_heard m now w frame audio
  generalize w.receives frame audio = r at h hwindow hopens hheard hpasses
  generalize onAudio m now w frame audio = t at h
  -- the pass that a hypothesis comes from is the window
  have hnew : ∀ text is_final, ∀ pass ∈ w.passes ++
      [⟨r.adapter.hypothesis now text is_final, text, r.adapter.buffer, r.opened⟩],
      OpensAt (frames ++ [frame]) pass.opened pass.window.length pass.hypothesis.t_audio_end := by
    intro text is_final pass hpass
    rcases List.mem_append.mp hpass with hpass | hpass
    · exact hold pass hpass
    · rw [List.mem_singleton.mp hpass]
      exact hopens
  rw [← hpasses] at hold hnew
  cases h with
  | waits hearly hloud hshort => exact ⟨hheard, fun _ => hwindow, hold⟩
  | silent hpass hloud => exact ⟨hheard, fun _ => hwindow, hold⟩
  | @interim text asks hpass htext hloud hshort => exact ⟨hheard, fun _ => hwindow, hnew text false⟩
  | @final text asks hpass htext hover =>
    exact ⟨hheard, fun hne => absurd rfl hne, hnew text true⟩

theorem windowed_onFrame (hw : Windowed frames w) (hframe : onFrame m now w frame = .ok w') :
    Windowed (frames ++ [frame]) w' := by
  obtain ⟨audio, haudio, hframe⟩ := bind_eq_ok.mp hframe
  cases hframe
  apply windowed_onAudio m now hw
  rw [converted, haudio]
  rfl

/-- Every hypothesis of a stream has its window among the frames, and it says
that the window ends after the time of its samples. -/
theorem windowed_transcribe {a : WhisperSttAdapter} (hfresh : a.buffer = [])
    (ht : transcribe m now a frames = .ok w) : ∀ pass ∈ w.passes,
      OpensAt frames pass.opened pass.window.length pass.hypothesis.t_audio_end := by
  unfold transcribe at ht
  split at ht
  · cases ht
  · obtain ⟨u, hframes, hend⟩ := bind_eq_ok.mp ht
    cases hend
    have hstart : Windowed [] ⟨a, 0, 0, 0, 0, []⟩ :=
      ⟨rfl, fun hne => absurd hfresh hne, by simp⟩
    have hw := foldlM_induction (P := Windowed)
      (fun _ w frame w' hw hframe => windowed_onFrame m now hw hframe) hstart hframes
    unfold atEnd
    split
    · exact hw.passes
    · rename_i hne
      simp only
      split
      · exact hw.passes
      · intro pass hpass
        rcases List.mem_append.mp hpass with hpass | hpass
        · exact hw.passes pass hpass
        · obtain ⟨first, rest, hdrop, hlength, hstart⟩ := hw.window hne
          rw [List.mem_singleton.mp hpass]
          refine ⟨first, rest, hdrop, hlength.le, ?_⟩
          simp only [WhisperSttAdapter.hypothesis, WhisperSttAdapter.currentAudioEnd, hstart]
          rfl

end

end lad_translate.stt_whisper
