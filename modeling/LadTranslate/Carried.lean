-- Which encoder step each hypothesis of the streaming adapter carries, read off
-- the texts of the steps alone, and how much audio those steps have read. The
-- front end makes one feature frame of every 10 ms.
import LadTranslate.Fallible
import LadTranslate.SourceTime

open fallible lad_translate.audio lad_translate.phrase_chunker lad_translate.source_time

namespace lad_translate.stt_fastconformer

variable {φ σ : Type}

/-! ## The steps that are carried -/

/-- The last text of an interim, and the steps whose new texts went out as
interims. The flush at the end sends none. -/
def interims (steps : List (EncoderStep φ)) : String × List (EncoderStep φ) :=
  steps.foldl (fun r step =>
    if step.keep_all_outputs = false ∧ step.text ≠ "" ∧ step.text ≠ r.1 then
      (step.text, r.2 ++ [step])
    else r) ("", [])

/-- The steps that the hypotheses of a whole stream carry: the interims, and
the last step for the final. -/
def carried (steps : List (EncoderStep φ)) : List (EncoderStep φ) :=
  (interims steps).2 ++ (steps.getLast?.filter fun step => step.text ≠ "").toList

theorem interims_snoc (steps : List (EncoderStep φ)) (step : EncoderStep φ) :
    interims (steps ++ [step]) =
      if step.keep_all_outputs = false ∧ step.text ≠ "" ∧ step.text ≠ (interims steps).1 then
        (step.text, (interims steps).2 ++ [step])
      else interims steps := by
  rw [interims, List.foldl_append]
  rfl

theorem interims_subset (steps : List (EncoderStep φ)) : ∀ step ∈ (interims steps).2, step ∈ steps := by
  induction steps using List.reverseRecOn with
  | nil => simp [interims]
  | append_singleton steps last ih =>
    intro step hstep
    rw [interims_snoc] at hstep
    split at hstep
    · rcases List.mem_append.mp hstep with hstep | hstep
      · exact List.mem_append_left _ (ih step hstep)
      · exact List.mem_append_right _ hstep
    · exact List.mem_append_left _ (ih step hstep)

theorem carried_subset (steps : List (EncoderStep φ)) : ∀ step ∈ carried steps, step ∈ steps := by
  intro step hstep
  rcases List.mem_append.mp hstep with hstep | hstep
  · exact interims_subset steps step hstep
  · rw [Option.mem_toList, Option.filter_eq_some_iff] at hstep
    exact List.mem_of_getLast? hstep.1

/-- A hypothesis has the text of a step, and its time. -/
def Carries (geometry : StreamingGeometry) (hyp : Hypothesis) (step : EncoderStep φ) : Prop :=
  hyp.text = step.text ∧ hyp.t_audio_end = geometry.audioTime step.plan.stop

/-- What was yielded so far carries the interims of the steps so far, and the
newest text is the one of the last step. -/
structure Hearing.OnTime (geometry : StreamingGeometry) (h : Hearing φ σ) : Prop where
  yielded : List.Forall₂ (Carries geometry) h.yielded (interims h.steps).2
  last_emitted : h.last_emitted = (interims h.steps).1
  text : h.text = (h.steps.getLast?.map (·.text)).getD ""
  last_plan : h.last_plan = h.steps.getLast?.map (·.plan)

section

variable (m : SpeechModel φ σ) {geometry : StreamingGeometry} (language : String)
  (now : Nat → ℚ) {h h' : Hearing φ σ}

namespace Hearing

/-- A step is recorded with its plan and its text. -/
theorem runStep_eq (h : Hearing φ σ) (chunk : List φ) (plan : ChunkPlan) (keep_all_outputs : Bool) :
    ∃ state step, step.plan = plan ∧ step.keep_all_outputs = keep_all_outputs ∧
      h.runStep m chunk plan keep_all_outputs = { h with
        state, text := step.text, last_plan := some step.plan, steps := h.steps ++ [step] } :=
  ⟨_, ⟨plan, _, keep_all_outputs, _⟩, rfl, rfl, rfl⟩

/-- What a hypothesis leaves, and what it adds. -/
theorem hypothesis_eq (geometry : StreamingGeometry) (h : Hearing φ σ) (plan : ChunkPlan) (is_final : Bool) :
    ∃ seq clock hyp, hyp.text = h.text ∧ hyp.t_audio_end = geometry.audioTime plan.stop ∧
      h.hypothesis geometry language now plan is_final =
        { h with seq, clock, yielded := h.yielded ++ [hyp] } :=
  ⟨_, _, ⟨h.text, is_final, 0, geometry.audioTime plan.stop, _, _, some language, none, some _⟩,
    rfl, rfl, rfl⟩

theorem onTime_listen (hh : h.OnTime geometry) (chunk : List φ) (plan : ChunkPlan) :
    (h.listen m geometry language now chunk plan).OnTime geometry := by
  obtain ⟨hyielded, hlast, -, -⟩ := hh
  unfold listen
  obtain ⟨state, step, hplan, hkeep, heq⟩ := runStep_eq m h chunk plan false
  have hinterims := interims_snoc h.steps step
  have hnewest : (h.steps ++ [step]).getLast? = some step := List.getLast?_concat
  rw [heq]
  unfold emitInterim
  simp only
  by_cases hnew : step.text ≠ "" ∧ step.text ≠ h.last_emitted
  · rw [if_pos hnew]
    rw [if_pos ⟨hkeep, hnew.1, hlast ▸ hnew.2⟩] at hinterims
    obtain ⟨seq, clock, hyp, htext, htime, heq'⟩ := hypothesis_eq language now geometry
      { h with
        state, text := step.text, last_plan := some step.plan, steps := h.steps ++ [step]
        last_emitted := step.text } plan false
    rw [heq']
    refine ⟨?_, ?_, ?_, ?_⟩
    · simp only [hinterims]
      refine List.rel_append hyielded (.cons ⟨htext, ?_⟩ .nil)
      rw [htime, hplan]
    · simp only [hinterims]
    · simp only [hnewest]
      rfl
    · simp only [hnewest]
      rfl
  · rw [if_neg hnew]
    rw [if_neg (fun hboth => hnew ⟨hboth.2.1, hlast ▸ hboth.2.2⟩)] at hinterims
    refine ⟨?_, ?_, ?_, ?_⟩
    · simp only [hinterims]
      exact hyielded
    · simp only [hinterims]
      exact hlast
    · simp only [hnewest]
      rfl
    · simp only [hnewest]
      rfl

/-- The flush sends no interim. -/
theorem onTime_flush (hh : h.OnTime geometry) (chunk : List φ) (plan : ChunkPlan) :
    (h.runStep m chunk plan true).OnTime geometry := by
  obtain ⟨hyielded, hlast, -, -⟩ := hh
  obtain ⟨state, step, hplan, hkeep, heq⟩ := runStep_eq m h chunk plan true
  have hinterims := interims_snoc h.steps step
  rw [if_neg (by simp [hkeep])] at hinterims
  have hnewest : (h.steps ++ [step]).getLast? = some step := List.getLast?_concat
  rw [heq]
  refine ⟨?_, ?_, ?_, ?_⟩
  · simp only [hinterims]
    exact hyielded
  · simp only [hinterims]
    exact hlast
  · simp only [hnewest]
    rfl
  · simp only [hnewest]
    rfl

/-- The final carries the last step. -/
theorem carries_emitFinal (hh : h.OnTime geometry) :
    List.Forall₂ (Carries geometry) (h.emitFinal geometry language now).yielded
      (carried (h.emitFinal geometry language now).steps) := by
  obtain ⟨hyielded, -, htext, hplan⟩ := hh
  unfold emitFinal
  cases hlast : h.steps.getLast? with
  | none =>
    rw [hlast] at hplan
    rw [hplan]
    simpa [carried, hlast] using hyielded
  | some step =>
    rw [hlast] at hplan htext
    rw [hplan]
    simp only [Option.map_some, Option.getD_some] at htext ⊢
    by_cases hsome : step.text ≠ ""
    · obtain ⟨seq, clock, hyp, hyptext, htime, heq⟩ :=
        hypothesis_eq language now geometry h step.plan true
      rw [if_pos (by rw [htext]; exact hsome), heq]
      simp only [carried, hlast]
      refine List.rel_append hyielded ?_
      simp only [Option.filter, decide_eq_true hsome, if_true, Option.toList_some]
      exact .cons ⟨hyptext.trans htext, htime⟩ .nil
    · rw [if_neg (by rw [htext]; exact hsome)]
      simp only [carried, hlast]
      simpa [Option.filter, hsome] using hyielded

end Hearing

/-! ## The audio that the steps have read -/

/-- The front end makes one feature frame of every 10 ms: 160 samples. -/
structure EveryTenMs (m : SpeechModel φ σ) (samples_per_block : Nat) : Prop where
  block : 160 ∣ samples_per_block
  features : ∀ block, (m.featurise block).length = block.length / 160

/-- What was yielded is on time, and the steps have read no more than so many
samples. -/
def Hearing.Within (geometry : StreamingGeometry) (n : Nat) (h : Hearing φ σ) : Prop :=
  h.OnTime geometry ∧ ∀ step ∈ h.steps, 160 * step.plan.stop ≤ n

theorem Hearing.Within.mono {n k : Nat} (hh : h.Within geometry n) (hle : n ≤ k) :
    h.Within geometry k :=
  ⟨hh.1, fun step hstep => (hh.2 step hstep).trans hle⟩

theorem within_runPlans {n : Nat} {buffer : FeatureBuffer φ} {plans : List ChunkPlan}
    (hh : h.Within geometry n) (hplans : ∀ plan ∈ plans, 160 * plan.stop ≤ n)
    (hrun : runPlans m geometry language now buffer plans h = .ok h') : h'.Within geometry n := by
  refine runPlans_induction (P := Hearing.Within geometry n) ?_ hh hrun
  intro plan hplan chunk h hh
  refine ⟨Hearing.onTime_listen m language now hh.1 chunk plan, ?_⟩
  intro step hstep
  rw [Hearing.listen, emitInterim_steps] at hstep
  obtain ⟨state, last, hlast, -, heq⟩ := Hearing.runStep_eq m h chunk plan false
  rw [heq] at hstep
  rcases List.mem_append.mp hstep with hstep | hstep
  · exact hh.2 step hstep
  · rw [List.mem_singleton.mp hstep, hlast]
    exact hplans plan hplan

/-- The preprocess loop makes features of whole blocks. -/
theorem blockLoop_count {n : Nat} (hm : EveryTenMs m n) {fuel : Nat} {pending pending' : List ℚ}
    {buffer buffer' : FeatureBuffer φ}
    (hloop : blockLoop m n fuel pending buffer = some (pending', buffer')) :
    160 * buffer'.available + pending'.length = 160 * buffer.available + pending.length := by
  induction fuel generalizing pending buffer with
  | zero => cases hloop
  | succ fuel ih =>
    unfold blockLoop at hloop
    split at hloop
    · rename_i hlong
      obtain ⟨q, hq⟩ := hm.block
      have hfeatures := hm.features (pending.take n)
      rw [List.length_take, min_eq_left hlong, hq, Nat.mul_div_cancel_left q (by omega)] at hfeatures
      have happend : (buffer.append (m.featurise (pending.take n))).available =
          buffer.available + (m.featurise (pending.take n)).length := rfl
      rw [hq] at happend
      rw [ih hloop, List.length_drop, hq, happend, hfeatures]
      omega
    · cases hloop
      rfl

/-- After some frames, their samples are features or still pending. -/
structure Counted (geometry : StreamingGeometry) (frames : List AudioFrame)
    (t : Transcriber φ σ) : Prop where
  within : t.hearing.Within geometry (convertedAll frames)
  samples : 160 * t.buffer.available + t.pending.length = convertedAll frames

theorem counted_onFrame {n : Nat} (hm : EveryTenMs m n) {frames : List AudioFrame}
    {t t' : Transcriber φ σ} {frame : AudioFrame} (hc : Counted geometry frames t)
    (hframe : onFrame m geometry language now n t frame = .ok t') :
    Counted geometry (frames ++ [frame]) t' := by
  obtain ⟨samples, pending, buffer, schedule, plans, hearing, hsamples, hloop, hoffer, hrun, rfl⟩ :=
    onFrame_eq_ok.mp hframe
  have hconverted : converted frame = samples.length := by
    rw [converted, hsamples]
    rfl
  have hall : convertedAll (frames ++ [frame]) = convertedAll frames + samples.length := by
    rw [convertedAll_append, convertedAll_cons, hconverted]
    rfl
  have hcount : 160 * buffer.available + pending.length = convertedAll (frames ++ [frame]) := by
    have hbefore := hc.samples
    rw [blockLoop_count m hm hloop, List.length_append, hall]
    omega
  have hplans : ∀ plan ∈ plans, 160 * plan.stop ≤ convertedAll (frames ++ [frame]) := by
    intro plan hplan
    have hstop := (ChunkSchedule.offer_offers hoffer).stop_le plan hplan
    omega
  refine ⟨within_runPlans m language now (hc.within.mono (by omega)) hplans hrun, ?_⟩
  simp only
  split
  · exact hcount
  · exact hcount

/-- Every hypothesis of a stream carries a step that has read no more samples
than there were. -/
theorem carries_transcribe {a : FastConformerSttAdapter} (hgeometry : a.geometry = some geometry)
    (hm : EveryTenMs m a.samplesPerBlock) {frames : List AudioFrame}
    (ht : transcribe m now a frames = .ok h) :
    List.Forall₂ (Carries geometry) h.yielded (carried h.steps) ∧
      ∀ step ∈ h.steps, 160 * step.plan.stop ≤ convertedAll frames := by
  unfold transcribe at ht
  rw [hgeometry] at ht
  obtain ⟨t, hframes, hend⟩ := bind_eq_ok.mp ht
  have hstart : Counted geometry []
      { hearing := Hearing.fresh m a
        buffer := FeatureBuffer.fresh
        schedule := ChunkSchedule.fresh geometry
        pending := [] } :=
    ⟨⟨⟨.nil, rfl, rfl, rfl⟩, by simp [Hearing.fresh]⟩, rfl⟩
  have hcounted := foldlM_induction (P := Counted geometry)
    (fun _ t frame t' hc hframe => counted_onFrame m a.language now hm hc hframe) hstart hframes
  obtain ⟨⟨hontime, hwithin⟩, hsamples⟩ := hcounted
  unfold atEnd at hend
  simp only at hend
  split at hend
  · cases hend
    exact ⟨Hearing.carries_emitFinal a.language now hontime, by rwa [emitFinal_steps]⟩
  · rename_i plan hflush
    obtain ⟨chunk, -, hend⟩ := bind_eq_ok.mp hend
    cases hend
    refine ⟨Hearing.carries_emitFinal a.language now (Hearing.onTime_flush m hontime chunk plan), ?_⟩
    intro step hstep
    rw [emitFinal_steps] at hstep
    obtain ⟨state, last, hplan, -, heq⟩ := Hearing.runStep_eq m t.hearing chunk plan true
    rw [heq] at hstep
    rcases List.mem_append.mp hstep with hstep | hstep
    · exact hwithin step hstep
    · rw [List.mem_singleton.mp hstep, hplan]
      -- the flush reads everything, and the pending samples make whole frames only
      rw [ChunkSchedule.flush_stop hflush]
      have hfeatures := hm.features t.pending
      split
      · omega
      · have happend : (t.buffer.append (m.featurise t.pending)).available =
            t.buffer.available + (m.featurise t.pending).length := rfl
        omega

end

end lad_translate.stt_fastconformer
