-- Shedding and the audio clock. An adapter counts the audio that it was given,
-- so its hypotheses are dated to the source exactly as long as nothing was shed
-- in the audio that it counts. The streaming adapter counts from the start of
-- the session, the sliding window from the start of its window.
import LadTranslate.Carried
import LadTranslate.Windows

open fallible lad_translate.audio

namespace lad_translate.source_time

open backpressure stt_fastconformer stt_whisper

section

variable {t : ℚ} {source : List (AudioFrame × Fate)}

/-! ## The two adapters -/

/-- Without a frame there is no step. -/
theorem steps_of_no_frames {φ σ : Type} (m : SpeechModel φ σ) {now : Nat → ℚ}
    {a : FastConformerSttAdapter} {h : Hearing φ σ}
    (ht : stt_fastconformer.transcribe m now a [] = .ok h) : h.steps = [] := by
  unfold stt_fastconformer.transcribe at ht
  split at ht
  · cases ht
  · cases ht
    rw [emitFinal_steps]
    rfl

/-- The streaming adapter dates a hypothesis to its source position exactly when
the audio that was shed before is what the conversion gained. -/
theorem position_of_step {φ σ : Type} (m : SpeechModel φ σ) {now : Nat → ℚ}
    {a : FastConformerSttAdapter} {h : Hearing φ σ} (hm : EveryTenMs m a.samplesPerBlock)
    (hsource : Contiguous 0 (source.map Prod.fst))
    (ht : stt_fastconformer.transcribe m now a (delivered source) = .ok h) :
    List.Forall₂ (fun hyp step => hyp.text = step.text ∧
      (hyp.t_audio_end = sourceEnd (delivered source) (160 * step.plan.stop) ↔
        lost source (160 * step.plan.stop) = gained (delivered source) (160 * step.plan.stop)))
      h.yielded (carried h.steps) := by
  obtain ⟨geometry, hgeometry⟩ : ∃ geometry, a.geometry = some geometry := by
    cases hg : a.geometry with
    | none =>
      unfold stt_fastconformer.transcribe at ht
      rw [hg] at ht
      cases ht
    | some geometry => exact ⟨geometry, rfl⟩
  obtain ⟨hcarries, hwithin⟩ := carries_transcribe m now hgeometry hm ht
  have hposition : ∀ step ∈ h.steps, ∀ hyp, Carries geometry hyp step → hyp.text = step.text ∧
      (hyp.t_audio_end = sourceEnd (delivered source) (160 * step.plan.stop) ↔
        lost source (160 * step.plan.stop) = gained (delivered source) (160 * step.plan.stop)) := by
    intro step hstep hyp hcarry
    have hsome : delivered source ≠ [] := by
      intro hnone
      rw [hnone] at ht
      rw [steps_of_no_frames m ht] at hstep
      cases hstep
    have htime : (step.plan.stop : ℚ) * (1 / 100) =
        0 + ((160 * step.plan.stop : Nat) : ℚ) / SAMPLE_RATE_16K := by
      rw [SAMPLE_RATE_16K]
      push_cast
      ring
    refine ⟨hcarry.1, ?_⟩
    rw [hcarry.2, StreamingGeometry.audioTime, htime]
    exact position_iff hsource hsome (hwithin step hstep)
  have hsteps := carried_subset h.steps
  generalize carried h.steps = steps at hcarries hsteps ⊢
  generalize h.yielded = hyps at hcarries ⊢
  induction hcarries with
  | nil => exact .nil
  | @cons hyp step hyps steps hcarry hrest ih =>
    refine .cons (hposition step (hsteps step List.mem_cons_self) hyp hcarry) (ih ?_)
    exact fun x hx => hsteps x (List.mem_cons_of_mem _ hx)

/-- The sliding window dates a hypothesis to its source position exactly when
the audio that was shed inside its window is what the conversion gained. -/
theorem position_of_pass [CaseTable] (m : WhisperModel) {now : Nat → ℚ} {a : WhisperSttAdapter}
    {w : Listening} (hfresh : a.buffer = []) (hsource : Contiguous t (source.map Prod.fst))
    (ht : stt_whisper.transcribe m now a (delivered source) = .ok w) : ∀ pass ∈ w.passes,
      (pass.hypothesis.t_audio_end =
          sourceEnd ((delivered source).drop pass.opened) pass.window.length ↔
        lost (since pass.opened source) pass.window.length =
          gained ((delivered source).drop pass.opened) pass.window.length) := by
  intro pass hpass
  obtain ⟨frame, rest, hdrop, hsamples, hend⟩ := windowed_transcribe m now hfresh ht pass hpass
  have hfrom := contiguous_since hsource hdrop
  rw [← delivered_since] at hdrop ⊢
  rw [hend]
  exact position_iff hfrom (by rw [hdrop]; simp) (hdrop ▸ hsamples)

end

/-! ## Behind a guard -/

/-- Behind a guard that sheds, in any order of turns: each hypothesis of the
streaming adapter, with the step that it carries, and each hypothesis of the
sliding window, with its window, is at its position in the source exactly when
the seconds that were shed in the audio that the adapter counts are those that
the conversion to 16 kHz gained. -/
theorem a_hypothesis_is_at_its_source_position_iff {ε : Type} (max_lag_s recover_to_s warn_lag_s : ℚ)
    (hvalid : recover_to_s < max_lag_s) (frames : List AudioFrame) (hframes : Contiguous 0 frames)
    (ending : Option ε) {turns : List Turn} {s : Guarded ε}
    (hr : (guarded (.fresh max_lag_s recover_to_s warn_lag_s hvalid) frames ending).run turns =
      some s) :
    (∀ {φ σ : Type} (m : SpeechModel φ σ) (now : Nat → ℚ) (a : FastConformerSttAdapter)
      (h : Hearing φ σ), EveryTenMs m a.samplesPerBlock →
      stt_fastconformer.transcribe m now a s.received = .ok h →
      List.Forall₂ (fun hyp step => hyp.text = step.text ∧
        (hyp.t_audio_end = sourceEnd s.received (160 * step.plan.stop) ↔
          lost s.ledger.left (160 * step.plan.stop) = gained s.received (160 * step.plan.stop)))
        h.yielded (carried h.steps)) ∧
    (∀ [CaseTable] (m : WhisperModel) (now : Nat → ℚ) (a : WhisperSttAdapter) (w : Listening),
      a.buffer = [] → stt_whisper.transcribe m now a s.received = .ok w → ∀ pass ∈ w.passes,
        (pass.hypothesis.t_audio_end = sourceEnd (s.received.drop pass.opened) pass.window.length ↔
          lost (since pass.opened s.ledger.left) pass.window.length =
            gained (s.received.drop pass.opened) pass.window.length)) := by
  obtain ⟨hsource, hreceived⟩ := source_of_guarded hframes hr
  rw [← hreceived]
  refine ⟨?_, ?_⟩
  · intro φ σ m now a h hm ht
    exact position_of_step m hm hsource ht
  · intro _ m now a w hfresh ht
    exact position_of_pass m hfresh hsource ht

/-- Ten milliseconds of a loud tone. -/
def tone (k : Nat) : AudioFrame where
  pcm := (List.replicate 160 [0, 64]).flatten
  sample_rate := 16000
  sample_rate_pos := by decide
  t_audio := k / 100
  t_wall := k / 100

theorem tone_16k (k : Nat) : AudioFrame16k (tone k) :=
  ⟨rfl, _, show fromBuffer (tone 0).pcm = .ok (List.replicate 160 (1 / 2)) by decide +kernel⟩

/-- Four frames behind a guard. The adapter holds the first one while the others
arrive, and the guard sheds the second and the third. -/
def lateRun : Option (Guarded Empty) :=
  (guarded (.fresh (3 / 100) (1 / 100) (2 / 100) (by norm_num))
    [tone 0, tone 1, tone 2, tone 3] none).run
    [.pull, .frame, .wake, .frame, .frame, .frame, .finish, .pull, .pull, .join]

theorem lateRun_evaluated : lateRun.map (fun s => (s.received, s.ledger.left)) =
    some ([tone 0, tone 3],
      [(tone 0, .delivered), (tone 1, .shed), (tone 2, .shed), (tone 3, .delivered)]) := by
  decide +kernel

/-- A model with a feature for every 10 ms, that hears a word a step. -/
def toneModel : SpeechModel Unit Nat where
  featurise block := List.replicate (block.length / 160) ()
  zero := ()
  initial := 0
  streamStep n _ _ _ := (n + 1, .texts [" ".intercalate (List.replicate (n + 1) "so")])

/-- One step for every feature, on blocks of 10 ms. -/
def toneAdapter : FastConformerSttAdapter where
  geometry := some ⟨1, 1, 1, 1, 0, 0, 0, 8⟩
  preprocess_block_s := 1 / 100

theorem toneModel_everyTenMs : EveryTenMs toneModel toneAdapter.samplesPerBlock :=
  ⟨by decide +kernel, fun block => by simp [toneModel]⟩

theorem tones_in_steps :
    (stt_fastconformer.transcribe toneModel (fun n => n) toneAdapter [tone 0, tone 3]).toOption.map
      (fun h => (h.yielded.map (·.t_audio_end), (carried h.steps).map (·.plan.stop))) =
      some ([1 / 100, 2 / 100, 2 / 100], [1, 2, 2]) := by
  decide +kernel

open stt_whisper.ascii

/-- A Whisper that hears one word in every window. -/
def oneWord : WhisperModel := fun _ _ => [⟨"so", 0, 0⟩]

theorem tones_in_a_window :
    (stt_whisper.transcribe oneWord (fun n => n) { loaded := true } [tone 0, tone 3]).toOption.map
      (fun w => w.passes.map fun pass =>
        (pass.hypothesis.t_audio_end, pass.opened, pass.window.length)) =
      some [(1 / 100, 0, 160), (2 / 100, 0, 320)] := by
  decide +kernel

theorem tones_in_the_source :
    Contiguous 0 [tone 0, tone 1, tone 2, tone 3] ∧ sourceEnd [tone 0, tone 3] 160 = 1 / 100 ∧
      sourceEnd [tone 0, tone 3] 320 = 4 / 100 := by
  decide +kernel

theorem a_hypothesis_is_at_its_source_position_iff_behind_a_late_guard :
    ∃ s h w, lateRun = some s ∧
      stt_fastconformer.transcribe toneModel (fun n => n) toneAdapter s.received = .ok h ∧
      stt_whisper.transcribe oneWord (fun n => n) { loaded := true } s.received = .ok w ∧
      List.Forall₂ (fun hyp step => hyp.text = step.text ∧
        (hyp.t_audio_end = sourceEnd s.received (160 * step.plan.stop) ↔
          lost s.ledger.left (160 * step.plan.stop) = gained s.received (160 * step.plan.stop)))
        h.yielded (carried h.steps) ∧
      ∀ pass ∈ w.passes,
        (pass.hypothesis.t_audio_end = sourceEnd (s.received.drop pass.opened) pass.window.length ↔
          lost (since pass.opened s.ledger.left) pass.window.length =
            gained (s.received.drop pass.opened) pass.window.length) := by
  obtain ⟨s, hrun, hs⟩ := Option.map_eq_some_iff.mp lateRun_evaluated
  have hreceived : s.received = [tone 0, tone 3] := (Prod.mk.inj hs).1
  obtain ⟨h, hh, -⟩ := Option.map_eq_some_iff.mp tones_in_steps
  obtain ⟨w, hw, -⟩ := Option.map_eq_some_iff.mp tones_in_a_window
  rw [toOption_eq_some, ← hreceived] at hh hw
  obtain ⟨hsteps, hpasses⟩ := a_hypothesis_is_at_its_source_position_iff (3 / 100) (1 / 100)
    (2 / 100) (by norm_num) [tone 0, tone 1, tone 2, tone 3] tones_in_the_source.1 none hrun
  exact ⟨s, h, w, hrun, hh, hw, hsteps toneModel _ toneAdapter h toneModel_everyTenMs hh,
    hpasses oneWord _ _ w rfl hw⟩

/-- After 20 ms were shed, both adapters date the last tone to 20 ms. It ends
after 40 ms, and the conversion gained nothing. -/
theorem shedding_shifts_both_audio_clocks :
    Contiguous 0 [tone 0, tone 1, tone 2, tone 3] ∧
    EveryTenMs toneModel toneAdapter.samplesPerBlock ∧
    ∃ s h w, lateRun = some s ∧
      stt_fastconformer.transcribe toneModel (fun n => n) toneAdapter s.received = .ok h ∧
      stt_whisper.transcribe oneWord (fun n => n) { loaded := true } s.received = .ok w ∧
      h.yielded.getLast?.map (·.t_audio_end) = some (2 / 100) ∧
      (carried h.steps).getLast?.map (fun step => sourceEnd s.received (160 * step.plan.stop)) =
        some (4 / 100) ∧
      w.passes.getLast?.map (fun pass => (pass.hypothesis.t_audio_end,
        sourceEnd (s.received.drop pass.opened) pass.window.length)) = some (2 / 100, 4 / 100) ∧
      ∀ n, gained s.received n = 0 := by
  obtain ⟨s, hrun, hs⟩ := Option.map_eq_some_iff.mp lateRun_evaluated
  have hreceived : s.received = [tone 0, tone 3] := (Prod.mk.inj hs).1
  obtain ⟨h, hh, hsteps⟩ := Option.map_eq_some_iff.mp tones_in_steps
  obtain ⟨w, hw, hpasses⟩ := Option.map_eq_some_iff.mp tones_in_a_window
  obtain ⟨htimes, hstops⟩ := Prod.mk.inj hsteps
  rw [toOption_eq_some, ← hreceived] at hh hw
  obtain ⟨hsource, -, hend⟩ := tones_in_the_source
  refine ⟨hsource, toneModel_everyTenMs, s, h, w, hrun, hh, hw, ?_, ?_, ?_, ?_⟩
  · rw [← List.getLast?_map, htimes]
    rfl
  · have hstop : (carried h.steps).getLast?.map (·.plan.stop) = some 2 := by
      rw [← List.getLast?_map, hstops]
      rfl
    obtain ⟨step, hlast, hstep⟩ := Option.map_eq_some_iff.mp hstop
    rw [hlast, Option.map_some, hstep, hreceived, hend]
  · have hpass : w.passes.getLast?.map (fun pass =>
        (pass.hypothesis.t_audio_end, pass.opened, pass.window.length)) = some (2 / 100, 0, 320) := by
      rw [← List.getLast?_map, hpasses]
      rfl
    obtain ⟨pass, hlast, hpass⟩ := Option.map_eq_some_iff.mp hpass
    obtain ⟨htime, hopened, hlength⟩ := by simpa only [Prod.mk.injEq] using hpass
    rw [hlast, Option.map_some, htime, hopened, hlength, hreceived, List.drop_zero, hend]
  · intro n
    apply gained_of_exact
    rw [hreceived]
    intro frame hframe
    simp only [List.mem_cons, List.not_mem_nil, or_false] at hframe
    rcases hframe with rfl | rfl
    · exact exact_of_16k (tone_16k 0)
    · exact exact_of_16k (tone_16k 3)

end lad_translate.source_time
