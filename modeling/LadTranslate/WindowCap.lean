-- The cap on the window of the sliding window adapter. A window that reached
-- it is closed by a pass that finds text, or by silence. A pass that finds
-- nothing keeps the whole window, however long it is.
import LadTranslate.Windows

open fallible lad_translate.audio lad_translate.phrase_chunker lad_translate.source_time

namespace lad_translate.stt_whisper

open stt_fastconformer (resampleTo16k)

section

variable [CaseTable] (m : WhisperModel) (now : Nat → ℚ)

/-! ## The states at which a frame is asked for -/

/-- What `transcribe` has heard when it asks for the frame after `frames`. -/
def heardBy (a : WhisperSttAdapter) (frames : List AudioFrame) : Except String Listening :=
  frames.foldlM (onFrame m now) ⟨a, 0, 0, 0, 0, []⟩

/-- Both adapters have what is set once and decides when an utterance closes. -/
structure SameSettings (a b : WhisperSttAdapter) : Prop where
  max_window_s : a.max_window_s = b.max_window_s
  silence_rms : a.silence_rms = b.silence_rms
  silence_duration_s : a.silence_duration_s = b.silence_duration_s
  speech_rms : a.speech_rms = b.speech_rms

section

variable {m now} {a : WhisperSttAdapter} {frames : List AudioFrame} {frame : AudioFrame}
  {w w' : Listening}

theorem heardBy_snoc :
    heardBy m now a (frames ++ [frame]) = .ok w' ↔ ∃ w audio, heardBy m now a frames = .ok w ∧
      resampleTo16k frame.pcm frame.sample_rate = .ok audio ∧ onAudio m now w frame audio = w' := by
  unfold heardBy
  rw [List.foldlM_append, bind_eq_ok]
  constructor
  · rintro ⟨w, hw, hframe⟩
    rw [List.foldlM_cons] at hframe
    obtain ⟨u, hu, hnil⟩ := bind_eq_ok.mp hframe
    cases hnil
    obtain ⟨audio, haudio, hu⟩ := bind_eq_ok.mp hu
    cases hu
    exact ⟨w, audio, hw, haudio, rfl⟩
  · rintro ⟨w, audio, hw, haudio, rfl⟩
    refine ⟨w, hw, ?_⟩
    rw [List.foldlM_cons]
    exact bind_eq_ok.mpr ⟨_, bind_eq_ok.mpr ⟨audio, haudio, rfl⟩, rfl⟩

omit [CaseTable] in
@[simp] theorem receives_buffer (w : Listening) (frame : AudioFrame) (audio : List ℚ) :
    (w.receives frame audio).adapter.buffer = w.adapter.buffer ++ audio := by
  unfold Listening.receives
  obtain ⟨quiet_for, heq⟩ := receive_eq w.adapter frame audio
  rw [heq]

omit [CaseTable] in
theorem receives_settings (w : Listening) (frame : AudioFrame) (audio : List ℚ) :
    SameSettings (w.receives frame audio).adapter w.adapter := by
  unfold Listening.receives
  obtain ⟨quiet_for, heq⟩ := receive_eq w.adapter frame audio
  rw [heq]
  exact ⟨rfl, rfl, rfl, rfl⟩

theorem onAudio_settings (w : Listening) (frame : AudioFrame) (audio : List ℚ) :
    SameSettings (onAudio m now w frame audio).adapter w.adapter := by
  have hsame := receives_settings w frame audio
  have hheard := onAudio_heard m now w frame audio
  generalize w.receives frame audio = r at hheard hsame
  generalize onAudio m now w frame audio = t at hheard ⊢
  cases hheard <;> exact ⟨hsame.1, hsame.2, hsame.3, hsame.4⟩

theorem heardBy_settings (h : heardBy m now a frames = .ok w) : SameSettings w.adapter a := by
  refine foldlM_induction (P := fun _ w => SameSettings w.adapter a) ?_ ⟨rfl, rfl, rfl, rfl⟩ h
  intro _ w frame w' hw hframe
  obtain ⟨audio, -, hframe⟩ := bind_eq_ok.mp hframe
  cases hframe
  have hstep : SameSettings (onAudio m now w frame audio).adapter w.adapter :=
    onAudio_settings w frame audio
  exact ⟨hstep.1.trans hw.1, hstep.2.trans hw.2, hstep.3.trans hw.3, hstep.4.trans hw.4⟩

end

/-! ## What a pass finds -/

/-- The answer of the model has something in it that was heard and not invented. -/
def Answered (segments : List Segment) : Prop :=
  ∃ seg ∈ segments, isHallucination seg.text seg.no_speech_prob seg.avg_logprob = false ∧
    strip seg.text ≠ ""

instance (segments : List Segment) : Decidable (Answered segments) :=
  inferInstanceAs (Decidable (∃ seg ∈ segments, _))

/-- The buffer is loud enough for a pass, and the pass finds text in it. -/
def Finds (r : Listening) : Prop :=
  r.adapter.buffer ≠ [] ∧ ¬ Quieter r.adapter.buffer r.adapter.speech_rms ∧
    Answered (m r.asks r.adapter.buffer)

/-- A kept answer gives a text when one of its segments does. -/
theorem kept_text_eq_empty {segments : List Segment} :
    strip (joinTokens ((segments.filter fun seg =>
      ! isHallucination seg.text seg.no_speech_prob seg.avg_logprob).map fun seg => strip seg.text)) = "" ↔
      ¬ Answered segments := by
  rw [strip_eq_empty, tokenise_joined, List.flatMap_eq_nil_iff, Answered]
  constructor
  · rintro hnone ⟨seg, hseg, hheard, htext⟩
    apply htext
    rw [strip_eq_empty, ← tokenise_strip]
    apply hnone
    exact List.mem_map_of_mem (List.mem_filter.mpr ⟨hseg, by simpa using hheard⟩)
  · intro hnone text htext
    obtain ⟨seg, hseg, rfl⟩ := List.mem_map.mp htext
    obtain ⟨hseg, hheard⟩ := List.mem_filter.mp hseg
    rw [tokenise_strip, ← strip_eq_empty]
    by_contra hsome
    exact hnone ⟨seg, hseg, by simpa using hheard, hsome⟩

theorem transcribeBuffer_eq_empty {r : Listening} :
    (r.adapter.transcribeBuffer m r.asks).1 = "" ↔ ¬ Finds m r := by
  unfold WhisperSttAdapter.transcribeBuffer Finds
  by_cases hempty : r.adapter.buffer = []
  · simp [hempty]
  · by_cases hquieter : Quieter r.adapter.buffer r.adapter.speech_rms
    · simp [hempty, hquieter]
    · rw [if_neg hempty, if_neg hquieter]
      simp only
      rw [kept_text_eq_empty]
      simp [hempty, hquieter]

/-! ## The cap -/

section

variable {m now} {a : WhisperSttAdapter} {frames : List AudioFrame}

omit [CaseTable] in
theorem not_overlong_of_empty {a : WhisperSttAdapter} (hcap : 0 < a.max_window_s)
    (hempty : a.buffer = []) : ¬ a.Overlong := by
  unfold WhisperSttAdapter.Overlong
  rw [hempty, List.length_nil, Nat.cast_zero, zero_div]
  exact not_le.mpr hcap

/-- One frame leaves the buffer below its cap, unless the buffer reached the
cap in noise: with nothing found in it and no silence to close it. -/
theorem onAudio_overlong_iff {w : Listening} {frame : AudioFrame} {audio : List ℚ}
    (hcap : 0 < w.adapter.max_window_s) :
    (onAudio m now w frame audio).adapter.Overlong ↔
      (w.receives frame audio).adapter.Overlong ∧
      ¬ ((w.receives frame audio).adapter.Quiet ∨ Finds m (w.receives frame audio)) := by
  have hheard := onAudio_heard m now w frame audio
  rw [← (receives_settings w frame audio).max_window_s] at hcap
  generalize w.receives frame audio = r at hheard hcap ⊢
  generalize onAudio m now w frame audio = t at hheard ⊢
  have hfinds := transcribeBuffer_eq_empty m (r := r)
  cases hheard with
  | waits hearly hloud hshort => exact iff_of_false hshort fun h => hshort h.1
  | silent hpass hloud =>
    rw [hpass] at hfinds
    constructor
    · intro hover
      exact ⟨hover, fun h => h.elim hloud (hfinds.mp rfl)⟩
    · intro h
      exact h.1
  | interim hpass htext hloud hshort => exact iff_of_false hshort fun h => hshort h.1
  | @final text asks hpass htext hover =>
    apply iff_of_false
    · exact not_overlong_of_empty hcap rfl
    · rintro ⟨-, hnot⟩
      obtain ⟨hloud, hnothing⟩ := not_or.mp hnot
      rw [hpass] at hfinds
      exact htext.elim (fun h => h (hfinds.mpr hnothing)) hloud

end

/-- Each time that a frame is asked for, the buffer is below its cap. -/
def StaysBelowCap (a : WhisperSttAdapter) (frames : List AudioFrame) : Prop :=
  ∀ heard w, heard <+: frames → heardBy m now a heard = .ok w →
    (w.adapter.buffer.length : ℚ) / 16000 < a.max_window_s

/-- Every frame that takes the buffer to its cap finds it quiet for long enough,
or the pass over it finds text. -/
def EndsAtCap (a : WhisperSttAdapter) (frames : List AudioFrame) : Prop :=
  ∀ heard frame audio w, heard ++ [frame] <+: frames → heardBy m now a heard = .ok w →
    resampleTo16k frame.pcm frame.sample_rate = .ok audio →
    a.max_window_s ≤ ((w.adapter.buffer ++ audio).length : ℚ) / 16000 →
    (w.receives frame audio).adapter.Quiet ∨ Finds m (w.receives frame audio)

section

variable {m now} {a : WhisperSttAdapter} {frames : List AudioFrame} {frame : AudioFrame}
  {audio : List ℚ} {w : Listening}

theorem below_cap_iff (hw : heardBy m now a frames = .ok w) :
    (w.adapter.buffer.length : ℚ) / 16000 < a.max_window_s ↔ ¬ w.adapter.Overlong := by
  rw [← (heardBy_settings hw).max_window_s, ← not_le]
  exact Iff.rfl

theorem reaches_cap_iff (hw : heardBy m now a frames = .ok w) :
    a.max_window_s ≤ ((w.adapter.buffer ++ audio).length : ℚ) / 16000 ↔
      (w.receives frame audio).adapter.Overlong := by
  unfold WhisperSttAdapter.Overlong
  rw [receives_buffer, (receives_settings w frame audio).max_window_s,
    (heardBy_settings hw).max_window_s]
  exact Iff.rfl

end

/-- In every run, the buffer is below its cap each time that a frame is asked
for, exactly when no frame takes it there in noise. -/
theorem the_buffer_stays_below_its_cap_iff (a : WhisperSttAdapter) (frames : List AudioFrame)
    (hfresh : a.buffer = []) (hcap : 0 < a.max_window_s) :
    StaysBelowCap m now a frames ↔ EndsAtCap m now a frames := by
  constructor
  · intro hbelow heard frame audio w hframes hw haudio hreaches
    by_contra hnot
    have hnext := heardBy_snoc.mpr ⟨w, audio, hw, haudio, rfl⟩
    have hover : (onAudio m now w frame audio).adapter.Overlong :=
      (onAudio_overlong_iff ((heardBy_settings hw).max_window_s ▸ hcap)).mpr
        ⟨(reaches_cap_iff hw).mp hreaches, hnot⟩
    exact (below_cap_iff hnext).mp (hbelow _ _ hframes hnext) hover
  · intro hends heard w hheard hw
    rw [below_cap_iff hw]
    rcases List.eq_nil_or_concat heard with rfl | ⟨before, frame, rfl⟩
    · cases hw
      exact not_overlong_of_empty hcap hfresh
    · rw [List.concat_eq_append] at hheard hw
      obtain ⟨u, audio, hu, haudio, rfl⟩ := heardBy_snoc.mp hw
      intro hover
      obtain ⟨hreaches, hnot⟩ :=
        (onAudio_overlong_iff ((heardBy_settings hu).max_window_s ▸ hcap)).mp hover
      exact hnot (hends before frame audio u hheard hu haudio ((reaches_cap_iff hu).mpr hreaches))

/-! ## Noise -/

/-- A loud frame that the model finds nothing in stays in the buffer. -/
theorem onAudio_noise {w : Listening} (frame : AudioFrame) {audio : List ℚ}
    (hnothing : ∀ asks window, ¬ Answered (m asks window)) (hquiet : w.adapter.quiet_for = 0)
    (hpos : 0 < w.adapter.silence_duration_s) (hloud : ¬ Quieter audio w.adapter.silence_rms) :
    (onAudio m now w frame audio).adapter.quiet_for = 0 ∧
      (onAudio m now w frame audio).adapter.buffer = w.adapter.buffer ++ audio := by
  have hsame := receives_settings w frame audio
  have hstill : (w.receives frame audio).adapter.quiet_for = 0 := by
    unfold Listening.receives WhisperSttAdapter.receive WhisperSttAdapter.trackSilence
    split <;> split <;> simp [hquiet, hloud]
  have hnot : ¬ (w.receives frame audio).adapter.Quiet := by
    unfold WhisperSttAdapter.Quiet
    rw [hstill, hsame.silence_duration_s]
    exact not_le.mpr hpos
  have hempty := (transcribeBuffer_eq_empty m (r := w.receives frame audio)).mpr
    fun hfinds => hnothing _ _ hfinds.2.2
  have hheard := onAudio_heard m now w frame audio
  rw [← receives_buffer w frame audio]
  generalize w.receives frame audio = r at hheard hstill hnot hempty
  generalize onAudio m now w frame audio = t at hheard ⊢
  cases hheard with
  | waits hearly hloud hshort => exact ⟨hstill, rfl⟩
  | silent hpass hloud => exact ⟨hstill, rfl⟩
  | interim hpass htext hloud hshort =>
    rw [hpass] at hempty
    exact absurd hempty htext
  | final hpass htext hover =>
    rw [hpass] at hempty
    exact htext.elim (absurd hempty) (absurd · hnot)

/-- A model that finds nothing in loud audio never has its buffer cleared: the
buffer grows with the stream. -/
theorem noise_fills_the_buffer (a : WhisperSttAdapter) (frames : List AudioFrame)
    (hnothing : ∀ asks window, ¬ Answered (m asks window)) (hfresh : a.buffer = [])
    (hquiet : a.quiet_for = 0) (hpos : 0 < a.silence_duration_s)
    (hloud : ∀ frame ∈ frames, ∃ audio, resampleTo16k frame.pcm frame.sample_rate = .ok audio ∧
      ¬ Quieter audio a.silence_rms) :
    ∃ w, heardBy m now a frames = .ok w ∧ w.adapter.quiet_for = 0 ∧
      w.adapter.buffer.length = convertedAll frames := by
  induction frames using List.reverseRecOn with
  | nil => exact ⟨_, rfl, hquiet, congrArg List.length hfresh⟩
  | append_singleton frames frame ih =>
    obtain ⟨w, hw, hstill, hlength⟩ := ih fun f hf => hloud f (List.mem_append_left _ hf)
    obtain ⟨audio, haudio, hframe⟩ := hloud frame (by simp)
    have hsame := heardBy_settings hw
    obtain ⟨hnext, hbuffer⟩ := onAudio_noise m now frame hnothing hstill
      (hsame.silence_duration_s ▸ hpos) (hsame.silence_rms ▸ hframe)
    refine ⟨_, heardBy_snoc.mpr ⟨w, audio, hw, haudio, rfl⟩, hnext, ?_⟩
    rw [hbuffer, List.length_append, hlength, convertedAll_append, convertedAll_cons frame, converted,
      haudio]
    rfl

end

theorem sixteen_k_pos : 0 < 16000 := by decide

/-- Ten milliseconds of applause. -/
def applause (k : Nat) : AudioFrame where
  pcm := (List.replicate 160 [0, 64]).flatten
  sample_rate := 16000
  sample_rate_pos := sixteen_k_pos
  t_audio := k / 100
  t_wall := k / 100

theorem applause_16k (k : Nat) : resampleTo16k (applause k).pcm (applause k).sample_rate =
    .ok (List.replicate 160 (1 / 2)) :=
  show resampleTo16k (applause 0).pcm 16000 = .ok (List.replicate 160 (1 / 2)) by decide +kernel

theorem convertedAll_applause (n : Nat) : convertedAll ((List.range n).map applause) = n * 160 := by
  have hone : converted ∘ applause = fun _ => 160 := by
    funext k
    rw [Function.comp_apply, converted, applause_16k]
    rfl
  unfold convertedAll
  rw [List.map_map, hone, List.map_const', List.sum_replicate, List.length_range, smul_eq_mul]

open ascii

/-- The default adapter, in nine seconds of applause that the model answers with
nothing. -/
theorem applause_passes_the_cap :
    ¬ StaysBelowCap (fun _ _ => []) (fun n => n) { loaded := true }
      ((List.range 900).map applause) := by
  intro hbelow
  obtain ⟨w, hw, -, hlength⟩ := noise_fills_the_buffer (fun _ _ => []) (fun n => n)
    { loaded := true } ((List.range 900).map applause)
    (fun _ _ ⟨_, hseg, _⟩ => absurd hseg List.not_mem_nil) rfl rfl (by norm_num) (by
      intro frame hframe
      obtain ⟨k, -, rfl⟩ := List.mem_map.mp hframe
      exact ⟨_, applause_16k k, by decide +kernel⟩)
  have hshort := hbelow _ _ (List.prefix_refl _) hw
  rw [hlength, convertedAll_applause] at hshort
  norm_num at hshort

/-- The cap of the window is not a bound on the buffer. -/
theorem the_cap_does_not_bound_the_buffer :
    ¬ ∀ (m : WhisperModel) (now : Nat → ℚ) (a : WhisperSttAdapter) (frames : List AudioFrame),
      a.buffer = [] → 0 < a.max_window_s → StaysBelowCap m now a frames := by
  intro h
  exact applause_passes_the_cap (h _ _ _ _ rfl (by norm_num))

theorem the_buffer_stays_below_its_cap_iff_in_applause :
    ¬ EndsAtCap (fun _ _ => []) (fun n => n) { loaded := true } ((List.range 900).map applause) := by
  rw [← the_buffer_stays_below_its_cap_iff (fun _ _ => []) (fun n => n) { loaded := true } _ rfl (by norm_num)]
  exact applause_passes_the_cap

end lad_translate.stt_whisper
