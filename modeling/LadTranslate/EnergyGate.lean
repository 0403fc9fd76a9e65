-- The energy gate of the sliding window adapter. A pass over a window that is
-- too quiet on average does not ask the model, and the silence that ends an
-- utterance is a part of that average.
import LadTranslate.WindowCap

open fallible lad_translate.audio lad_translate.phrase_chunker

namespace lad_translate.stt_whisper

open stt_fastconformer (resampleTo16k)

/-! ## Energy -/

/-- The energy of some samples above that of as many at a level. -/
def excess (level : ℚ) (samples : List ℚ) : ℚ :=
  (samples.map fun x => x * x).sum - level * level * samples.length

theorem excess_append (level : ℚ) (xs ys : List ℚ) :
    excess level (xs ++ ys) = excess level xs + excess level ys := by
  unfold excess
  rw [List.map_append, List.sum_append, List.length_append, Nat.cast_add]
  ring

/-- The samples reach a level on average when they do not lack energy. -/
theorem not_quieter_iff {samples : List ℚ} {level : ℚ} (hsome : samples ≠ []) :
    ¬ Quieter samples level ↔ (0 < level → 0 ≤ excess level samples) := by
  have hpos : (0 : ℚ) < samples.length := Nat.cast_pos.mpr (List.length_pos_iff.mpr hsome)
  unfold Quieter meanSquare excess
  rw [not_and, not_lt, le_div_iff₀ hpos, sub_nonneg]

/-- What a window has too much of makes up for what the audio after it lacks. -/
def Outweighs (level : ℚ) (window later : List ℚ) : Prop :=
  0 < level → -excess level later ≤ excess level window

theorem outweighs_iff {window later : List ℚ} {level : ℚ} (hsome : window ≠ []) :
    Outweighs level window later ↔ ¬ Quieter (window ++ later) level := by
  rw [not_quieter_iff (List.append_ne_nil_of_left_ne_nil hsome later), excess_append, Outweighs]
  refine forall_congr' fun _ => ?_
  rw [neg_le_iff_add_nonneg, add_comm]

/-! ## The passes over one buffer -/

/-- The passes of the current buffer that yielded an interim. -/
def Listening.interims (w : Listening) : List Pass :=
  w.passes.filter fun pass => pass.opened = w.opened ∧ pass.hypothesis.is_final = false

theorem mem_interims {w : Listening} {pass : Pass} : pass ∈ w.interims ↔
    pass ∈ w.passes ∧ pass.opened = w.opened ∧ pass.hypothesis.is_final = false := by
  unfold Listening.interims
  rw [List.mem_filter, decide_eq_true_iff]

/-- A buffer was opened after every pass over an earlier one, and an interim
heard a part of it, from its start. -/
structure Current (w : Listening) : Prop where
  opened : w.opened ≤ w.heard
  before : ∀ pass ∈ w.passes, pass.opened < w.heard
  heard : ∀ pass ∈ w.passes, pass.hypothesis.is_final = false → pass.window ≠ []
  windows : w.adapter.buffer ≠ [] → ∀ pass ∈ w.interims, pass.window <+: w.adapter.buffer

section

variable [CaseTable] {m : WhisperModel} {now : Nat → ℚ} {a : WhisperSttAdapter}
  {frames : List AudioFrame} {frame : AudioFrame} {audio : List ℚ} {w : Listening}

omit [CaseTable] in
/-- With the next frame in the buffer, all its interims heard a part of it. -/
theorem Current.receives (h : Current w) (frame : AudioFrame) (audio : List ℚ) :
    (w.receives frame audio).opened < (w.receives frame audio).heard ∧
    ∀ pass ∈ (w.receives frame audio).interims,
      pass.window <+: (w.receives frame audio).adapter.buffer := by
  have hopened : (w.receives frame audio).opened =
    if w.adapter.buffer.length = 0 then w.heard else w.opened := rfl
  have hheard : (w.receives frame audio).heard = w.heard + 1 := rfl
  have hpasses : (w.receives frame audio).passes = w.passes := rfl
  rw [hopened, hheard, receives_buffer]
  constructor
  · split
    · exact Nat.lt_succ_self _
    · exact Nat.lt_succ_of_le h.opened
  · intro pass hpass
    obtain ⟨hmem, hat, hinterim⟩ := mem_interims.mp hpass
    rw [hpasses] at hmem
    rw [hopened] at hat
    by_cases hempty : w.adapter.buffer.length = 0
    · rw [if_pos hempty] at hat
      exact absurd (h.before pass hmem) (by omega)
    · rw [if_neg hempty] at hat
      have hsome : w.adapter.buffer ≠ [] := fun hnil => hempty (by rw [hnil]; rfl)
      exact (h.windows hsome pass (mem_interims.mpr ⟨hmem, hat, hinterim⟩)).trans
        (List.prefix_append _ _)

theorem current_onAudio (h : Current w) (frame : AudioFrame) (audio : List ℚ) :
    Current (onAudio m now w frame audio) := by
  obtain ⟨hopened, hwindows⟩ := h.receives frame audio
  have hbefore : ∀ pass ∈ (w.receives frame audio).passes,
      pass.opened < (w.receives frame audio).heard :=
    fun pass hpass => Nat.lt_succ_of_lt (h.before pass hpass)
  have hsome : ∀ pass ∈ (w.receives frame audio).passes,
      pass.hypothesis.is_final = false → pass.window ≠ [] := h.heard
  have hheard := onAudio_heard m now w frame audio
  generalize w.receives frame audio = r at hheard hopened hwindows hbefore hsome
  generalize onAudio m now w frame audio = t at hheard ⊢
  have hfinds := transcribeBuffer_eq_empty m (r := r)
  cases hheard with
  | waits hearly hloud hshort => exact ⟨hopened.le, hbefore, hsome, fun _ => hwindows⟩
  | silent hpass hloud => exact ⟨hopened.le, hbefore, hsome, fun _ => hwindows⟩
  | @interim text asks hpass htext hloud hshort =>
    have hbuffer : r.adapter.buffer ≠ [] := by
      rw [hpass] at hfinds
      exact (not_not.mp (mt hfinds.mpr htext)).1
    refine ⟨hopened.le, ?_, ?_, ?_⟩
    · intro pass hmem
      rcases List.mem_append.mp hmem with hmem | hmem
      · exact hbefore pass hmem
      · rw [List.mem_singleton.mp hmem]
        exact hopened
    · intro pass hmem hinterim
      rcases List.mem_append.mp hmem with hmem | hmem
      · exact hsome pass hmem hinterim
      · rw [List.mem_singleton.mp hmem]
        exact hbuffer
    · intro _ pass hpass
      obtain ⟨hmem, hat, hinterim⟩ := mem_interims.mp hpass
      rcases List.mem_append.mp hmem with hmem | hmem
      · exact hwindows pass (mem_interims.mpr ⟨hmem, hat, hinterim⟩)
      · rw [List.mem_singleton.mp hmem]
        exact List.prefix_refl _
  | @final text asks hpass htext hover =>
    refine ⟨hopened.le, ?_, ?_, fun hne => absurd rfl hne⟩
    · intro pass hmem
      rcases List.mem_append.mp hmem with hmem | hmem
      · exact hbefore pass hmem
      · rw [List.mem_singleton.mp hmem]
        exact hopened
    · intro pass hmem hinterim
      rcases List.mem_append.mp hmem with hmem | hmem
      · exact hsome pass hmem hinterim
      · rw [List.mem_singleton.mp hmem] at hinterim
        cases hinterim

theorem heardBy_current (hw : heardBy m now a frames = .ok w) : Current w := by
  refine foldlM_induction (P := fun _ w => Current w) ?_ ?_ hw
  · intro _ w frame w' hw hframe
    obtain ⟨audio, -, hframe⟩ := bind_eq_ok.mp hframe
    cases hframe
    exact current_onAudio hw frame audio
  · exact ⟨le_rfl, by simp, by simp, by simp [Listening.interims]⟩

/-! ## The pass that closes -/

/-- The model is asked in a pass when the buffer reaches the level of speech. -/
theorem transcribeBuffer_asks (a : WhisperSttAdapter) (asks : Nat) :
    (a.transcribeBuffer m asks).2 = asks + 1 ↔
      a.buffer ≠ [] ∧ ¬ Quieter a.buffer a.speech_rms := by
  unfold WhisperSttAdapter.transcribeBuffer
  by_cases hempty : a.buffer = []
  · simp [hempty]
  · by_cases hquieter : Quieter a.buffer a.speech_rms
    · simp [hempty, hquieter]
    · simp [hempty, hquieter]

/-- The step yielded a final. -/
def YieldsFinal (r t : Listening) : Prop :=
  ∃ pass, t.passes = r.passes ++ [pass] ∧ pass.hypothesis.is_final = true

/-- A step that closes the utterance is a pass in silence, or it found text. It
asks the model when the buffer reaches the level of speech. -/
theorem yieldsFinal_cases {t : Listening} {r : Listening} (hheard : Heard m now r frame t)
    (hfinal : YieldsFinal r t) : (r.adapter.Quiet ∨ Finds m r) ∧
      (t.asks = r.asks + 1 ↔ r.adapter.buffer ≠ [] ∧ ¬ Quieter r.adapter.buffer r.adapter.speech_rms) := by
  obtain ⟨pass, hpasses, hfinal⟩ := hfinal
  cases hheard with
  | waits hearly hloud hshort => exact absurd (congrArg List.length hpasses) (by simp)
  | silent hpass hloud => exact absurd (congrArg List.length hpasses) (by simp)
  | interim hpass htext hloud hshort =>
    obtain rfl := List.singleton_inj.mp (List.append_cancel_left hpasses)
    cases hfinal
  | @final text asks hpass htext hover =>
    have hasks := transcribeBuffer_asks (m := m) r.adapter r.asks
    have hfinds := transcribeBuffer_eq_empty m (r := r)
    rw [hpass] at hasks hfinds
    refine ⟨?_, hasks⟩
    rcases htext with htext | hquiet
    · exact .inr (not_not.mp (mt hfinds.mpr htext))
    · exact .inl hquiet

theorem yieldsFinal_of_quiet {t : Listening} {r : Listening} (hheard : Heard m now r frame t)
    (hquiet : r.adapter.Quiet) : YieldsFinal r t := by
  cases hheard with
  | waits hearly hloud hshort => exact absurd hquiet hloud
  | silent hpass hloud => exact absurd hquiet hloud
  | interim hpass htext hloud hshort => exact absurd hquiet hloud
  | final hpass htext hover => exact ⟨_, rfl, rfl⟩

variable (m now) in
/-- Where an interim was yielded of a buffer, the pass that closes the buffer
asks the model. -/
def AsksAtClose (a : WhisperSttAdapter) (frames : List AudioFrame) : Prop :=
  ∀ heard frame audio w, heard ++ [frame] <+: frames → heardBy m now a heard = .ok w →
    resampleTo16k frame.pcm frame.sample_rate = .ok audio →
    (w.receives frame audio).interims ≠ [] →
    YieldsFinal (w.receives frame audio) (onAudio m now w frame audio) →
    (onAudio m now w frame audio).asks = w.asks + 1

variable (m now) in
/-- When it has been quiet for long enough, the audio since each interim of the
buffer lacks no more energy than the interim had beyond the level of speech. -/
def SpeechOutweighsSilence (a : WhisperSttAdapter) (frames : List AudioFrame) : Prop :=
  ∀ heard frame audio w, heard ++ [frame] <+: frames → heardBy m now a heard = .ok w →
    resampleTo16k frame.pcm frame.sample_rate = .ok audio →
    (w.receives frame audio).adapter.Quiet → ∀ pass ∈ (w.receives frame audio).interims,
      Outweighs a.speech_rms pass.window
        ((w.adapter.buffer ++ audio).drop pass.window.length)

omit [CaseTable] in
/-- An interim with what came after it is the buffer. -/
theorem Current.outweighs (h : Current w) {pass : Pass}
    (hpass : pass ∈ (w.receives frame audio).interims) (level : ℚ) :
    (w.receives frame audio).adapter.buffer ≠ [] ∧
    (Outweighs level pass.window ((w.adapter.buffer ++ audio).drop pass.window.length) ↔
      ¬ Quieter (w.receives frame audio).adapter.buffer level) := by
  obtain ⟨later, hlater⟩ := (h.receives frame audio).2 pass hpass
  obtain ⟨hmem, -, hinterim⟩ := mem_interims.mp hpass
  have hsome := h.heard pass hmem hinterim
  rw [outweighs_iff hsome, ← receives_buffer w frame audio, ← hlater, List.drop_left]
  exact ⟨List.append_ne_nil_of_left_ne_nil hsome later, Iff.rfl⟩

/-- In every run, the pass that closes a buffer with an interim asks the model,
exactly when the silence that closes it has not outweighed the speech. -/
theorem a_heard_buffer_is_asked_about_iff (m : WhisperModel) (now : Nat → ℚ)
    (a : WhisperSttAdapter) (frames : List AudioFrame) :
    AsksAtClose m now a frames ↔ SpeechOutweighsSilence m now a frames := by
  constructor
  · intro hasks heard frame audio w hframes hw haudio hquiet pass hpass
    obtain ⟨hbuffer, houtweighs⟩ := (heardBy_current hw).outweighs hpass a.speech_rms
    have hheard := onAudio_heard m now w frame audio
    have hfinal := yieldsFinal_of_quiet hheard hquiet
    have hasked := hasks heard frame audio w hframes hw haudio (List.ne_nil_of_mem hpass) hfinal
    have hloud := ((yieldsFinal_cases hheard hfinal).2.mp hasked).2
    rw [(receives_settings w frame audio).speech_rms, (heardBy_settings hw).speech_rms] at hloud
    exact houtweighs.mpr hloud
  · intro hspeech heard frame audio w hframes hw haudio hinterims hfinal
    obtain ⟨pass, hpass⟩ := List.exists_mem_of_ne_nil _ hinterims
    obtain ⟨hbuffer, houtweighs⟩ := (heardBy_current hw).outweighs hpass a.speech_rms
    obtain ⟨hclosed, hasks⟩ := yieldsFinal_cases (onAudio_heard m now w frame audio) hfinal
    apply hasks.mpr
    refine ⟨hbuffer, ?_⟩
    rcases hclosed with hquiet | hfinds
    · rw [(receives_settings w frame audio).speech_rms, (heardBy_settings hw).speech_rms]
      exact houtweighs.mp (hspeech heard frame audio w hframes hw haudio hquiet pass hpass)
    · exact hfinds.2.1

end

/-! ## A pause after soft speech -/

/-- Ten milliseconds, at a level of so many units of 1/32768. -/
def levelled (k : Nat) (units : UInt8) : AudioFrame where
  pcm := (List.replicate 160 [units, 0]).flatten
  sample_rate := 16000
  sample_rate_pos := sixteen_k_pos
  t_audio := k / 100
  t_wall := k / 100

/-- Soft speech, with a level of 0.007, and a pause after it. -/
def speechAndPause : List AudioFrame := [levelled 0 230, levelled 1 0]

/-- An adapter that closes an utterance after ten milliseconds of silence, and
has defaults for the rest. -/
def quickToClose : WhisperSttAdapter := { loaded := true, silence_duration_s := 1 / 100 }

open ascii

/-- The speech is heard, and then the whole buffer is closed by an empty final. -/
example :
    (transcribe (fun _ _ => [⟨"so", 0, 0⟩]) (fun n => n) quickToClose speechAndPause).toOption.map
      (fun w => (w.asks, w.adapter.locked_text, w.adapter.buffer,
        w.passes.map fun pass => (pass.hypothesis.text, pass.hypothesis.is_final))) =
      some (1, "", [], [("so", false), ("", true)]) := by
  decide +kernel

theorem pause_after_speech :
    (heardBy (fun _ _ => [⟨"so", 0, 0⟩]) (fun n => n) quickToClose [levelled 0 230]).toOption.map
      (fun w =>
        let r := w.receives (levelled 1 0) (List.replicate 160 0)
        (decide (r.interims = []), decide r.adapter.Quiet, w.asks,
          (onAudio (fun _ _ => [⟨"so", 0, 0⟩]) (fun n => n) w (levelled 1 0)
            (List.replicate 160 0)).asks)) =
      some (false, true, 1, 1) := by
  decide +kernel

/-- A buffer that speech was heard in can close without a pass over it. -/
theorem a_heard_buffer_is_not_always_asked_about :
    ¬ ∀ (m : WhisperModel) (now : Nat → ℚ) (a : WhisperSttAdapter) (frames : List AudioFrame),
      a.buffer = [] → a.silence_rms ≤ a.speech_rms → AsksAtClose m now a frames := by
  intro h
  obtain ⟨w, hw, hpause⟩ := Option.map_eq_some_iff.mp pause_after_speech
  obtain ⟨hinterims, hquiet, hasked, hasks⟩ := by simpa only [Prod.mk.injEq] using hpause
  rw [toOption_eq_some] at hw
  have hasksAgain := h _ _ quickToClose speechAndPause rfl (by decide +kernel) [levelled 0 230]
    (levelled 1 0) (List.replicate 160 0) w (List.prefix_refl _) hw (by decide +kernel)
    (of_decide_eq_false hinterims)
    (yieldsFinal_of_quiet (onAudio_heard _ _ w _ _) (of_decide_eq_true hquiet))
  rw [hasks, hasked] at hasksAgain
  omega

end lad_translate.stt_whisper
