-- The laws of framing: the adapter performs the encoder steps of a reference
-- that keeps every feature, however the samples are cut into frames.
import LadTranslate.FastConformer

open blocks fallible lad_translate.audio lad_translate.phrase_chunker

namespace lad_translate.stt_fastconformer

variable {φ σ : Type}

/-! ## The reference -/

/-- A frame of 16 kHz audio, made of whole samples. -/
def AudioFrame16k (frame : AudioFrame) : Prop :=
  frame.sample_rate = SAMPLE_RATE_16K ∧ ∃ samples, fromBuffer frame.pcm = .ok samples

/-- The samples of a frame. -/
def samplesOf (frame : AudioFrame) : List ℚ := (fromBuffer frame.pcm).toOption.getD []

/-- The features of the full blocks of some samples. -/
def blockFeatures (m : SpeechModel φ σ) (samples_per_block : Nat) (samples : List ℚ) : List φ :=
  (fullBlocks samples_per_block samples).flatMap m.featurise

/-- The features of all the samples, the leftover ones too. -/
def allFeatures (m : SpeechModel φ σ) (samples_per_block : Nat) (samples : List ℚ) : List φ :=
  blockFeatures m samples_per_block samples ++
    if leftover samples_per_block samples = [] then []
    else m.featurise (leftover samples_per_block samples)

/-- The frames of a step, from all the features. -/
def stepFrames (features : List φ) (plan : ChunkPlan) : List φ :=
  (features.take plan.stop).drop plan.cache_start

/-- The steps of an encoder that has every feature at hand: it takes the plans one
after the other, each with whether it keeps all outputs, and carries its state. -/
def encode (m : SpeechModel φ σ) (features : List φ) :
    σ → List (ChunkPlan × Bool) → List (EncoderStep φ)
  | _, [] => []
  | state, (plan, keep_all_outputs) :: rest =>
    let input := List.replicate plan.zero_pad m.zero ++
      (features.take plan.stop).drop plan.cache_start
    let (state, transcribed) :=
      m.streamStep state input keep_all_outputs plan.drop_extra_pre_encoded
    ⟨plan, input, keep_all_outputs, extractText transcribed⟩ :: encode m features state rest

/-- A step of a session on all the features. -/
def listenTo (m : SpeechModel φ σ) (geometry : StreamingGeometry) (language : String)
    (now : Nat → ℚ) (features : List φ) (h : Hearing φ σ) (plan : ChunkPlan) : Hearing φ σ :=
  h.listen m geometry language now (stepFrames features plan) plan

/-- The reference: it keeps every feature, offers the full blocks once, and
then flushes. -/
def reference (m : SpeechModel φ σ) (a : FastConformerSttAdapter) (geometry : StreamingGeometry)
    (now : Nat → ℚ) (samples : List ℚ) : Option (Hearing φ σ) := do
  let features := allFeatures m a.samplesPerBlock samples
  let (schedule, plans) ← (ChunkSchedule.fresh geometry).offer
    (blockFeatures m a.samplesPerBlock samples).length
  let h := plans.foldl (listenTo m geometry a.language now features) (.fresh m a)
  match (schedule.flush features.length).2 with
  | none => return h.emitFinal geometry a.language now
  | some plan =>
    return (h.runStep m (stepFrames features plan) plan true).emitFinal geometry a.language now

/-- What was heard, without the times at which it was yielded. -/
def Hearing.untimed (h : Hearing φ σ) : Hearing φ σ :=
  { h with yielded := h.yielded.map fun hyp => { hyp with t_wall := 0 } }

/-- The steps are those of the ideal: a fresh schedule is offered the features of the
full blocks, and flushed with all of them; each step is fed its zeros and then its
frames, and says what the encoder says to that. -/
structure IdealSteps (m : SpeechModel φ σ) (geometry : StreamingGeometry) (samples_per_block : Nat)
    (samples : List ℚ) (steps : List (EncoderStep φ)) : Prop where
  plans : ∃ schedule plans,
    (ChunkSchedule.fresh geometry).offer (blockFeatures m samples_per_block samples).length =
        some (schedule, plans) ∧
      steps.map (fun step => (step.plan, step.keep_all_outputs)) = plans.map (·, false) ++
        (schedule.flush (allFeatures m samples_per_block samples).length).2.toList.map (·, true)
  inputs : ∀ step ∈ steps, step.input = List.replicate step.plan.zero_pad m.zero ++
    ((allFeatures m samples_per_block samples).take step.plan.stop).drop step.plan.cache_start
  texts : steps = encode m (allFeatures m samples_per_block samples) m.initial
    (steps.map fun step => (step.plan, step.keep_all_outputs))

/-! ## The blocks of a stream -/

theorem blockFeatures_append (m : SpeechModel φ σ) {n : Nat} (hn : 0 < n) (s x : List ℚ) :
    blockFeatures m n (s ++ x) = blockFeatures m n s ++ blockFeatures m n (leftover n s ++ x) := by
  rw [blockFeatures, fullBlocks_append hn, List.flatMap_append]
  rfl

/-- The preprocess loop takes the full blocks and leaves the rest. -/
theorem blockLoop_eq (m : SpeechModel φ σ) {n : Nat} (hn : 0 < n) {fuel : Nat} {pending : List ℚ}
    {buffer : FeatureBuffer φ} {features : List φ} (hf : pending.length < fuel)
    (hb : buffer.Holds features) : ∃ buffer', blockLoop m n fuel pending buffer =
      some (leftover n pending, buffer') ∧
      buffer'.Holds (features ++ blockFeatures m n pending) ∧
      buffer'.window.origin = buffer.window.origin := by
  induction fuel generalizing pending buffer features with
  | zero => omega
  | succ fuel ih =>
    unfold blockLoop
    rcases Nat.lt_or_ge pending.length n with hshort | hlong
    · rw [if_neg (by omega), blockFeatures, fullBlocks_of_lt hshort, leftover_of_lt hshort]
      exact ⟨buffer, rfl, by simpa using hb, rfl⟩
    · rw [if_pos hlong, blockFeatures, fullBlocks_of_le hn hlong, leftover_of_le hn hlong,
        List.flatMap_cons, ← List.append_assoc]
      have hshorter : (pending.drop n).length < fuel := by
        rw [List.length_drop]
        omega
      obtain ⟨buffer', hrun, hholds, horigin⟩ :=
        ih hshorter (hb.append (m.featurise (pending.take n)))
      exact ⟨buffer', hrun, hholds, horigin⟩

theorem stepFrames_append {features : List φ} (more : List φ) {plan : ChunkPlan}
    (h : plan.stop ≤ features.length) :
    stepFrames (features ++ more) plan = stepFrames features plan := by
  rw [stepFrames, List.take_append_of_le_length h, stepFrames]

/-- Steps on frames that have arrived do not depend on the frames to come. -/
theorem listenTo_append (m : SpeechModel φ σ) (geometry : StreamingGeometry) (language : String)
    (now : Nat → ℚ) {features : List φ} (more : List φ) {plans : List ChunkPlan}
    (h : ∀ p ∈ plans, p.stop ≤ features.length) (start : Hearing φ σ) :
    plans.foldl (listenTo m geometry language now (features ++ more)) start =
      plans.foldl (listenTo m geometry language now features) start := by
  induction plans generalizing start with
  | nil => rfl
  | cons p plans ih =>
    rw [List.foldl_cons, List.foldl_cons, listenTo, listenTo,
      stepFrames_append more (h p List.mem_cons_self)]
    exact ih (fun q hq => h q (List.mem_cons_of_mem _ hq)) _

/-- A batch on a buffer that holds its frames never raises. -/
theorem runPlans_eq (m : SpeechModel φ σ) (geometry : StreamingGeometry) (language : String)
    (now : Nat → ℚ) {buffer : FeatureBuffer φ} {features : List φ} (hb : buffer.Holds features)
    {plans : List ChunkPlan} (h : ∀ p ∈ plans,
      buffer.window.origin ≤ p.cache_start ∧ 0 < p.stop ∧ p.stop ≤ features.length)
    (start : Hearing φ σ) : runPlans m geometry language now buffer plans start =
      .ok (plans.foldl (listenTo m geometry language now features) start) := by
  induction plans generalizing start with
  | nil => rfl
  | cons p plans ih =>
    obtain ⟨horigin, hpos, hstop⟩ := h p List.mem_cons_self
    rw [runPlans, hb.slice horigin hstop hpos]
    exact ih (fun q hq => h q (List.mem_cons_of_mem _ hq)) _

/-! ## What the adapter keeps -/

/-- After some samples: the buffer holds a tail of their features that reaches
back to what the next step needs, and the steps taken are those that the whole
count of frames offers. -/
structure Synced (m : SpeechModel φ σ) (geometry : StreamingGeometry) (a : FastConformerSttAdapter)
    (now : Nat → ℚ) (samples : List ℚ) (t : Transcriber φ σ) : Prop where
  pending : t.pending = leftover a.samplesPerBlock samples
  holds : t.buffer.Holds (blockFeatures m a.samplesPerBlock samples)
  retained : t.buffer.window.origin ≤ t.schedule.retainFrom
  started : t.schedule.Started
  kept : t.schedule.geometry = geometry
  steps : ∃ plans,
    ChunkSchedule.Offers (blockFeatures m a.samplesPerBlock samples).length (.fresh geometry) plans
      t.schedule ∧
    t.hearing = plans.foldl (listenTo m geometry a.language now
      (blockFeatures m a.samplesPerBlock samples)) (.fresh m a)

theorem resample_16k {frame : AudioFrame} (h : AudioFrame16k frame) :
    resampleTo16k frame.pcm frame.sample_rate = .ok (samplesOf frame) := by
  obtain ⟨hrate, samples, hs⟩ := h
  simp only [resampleTo16k, hs, samplesOf, hrate]
  rfl

/-- The start is not yet an offer of 0 frames only if the first chunk is
empty, which a schedule that advances has not. -/
theorem synced_start (m : SpeechModel φ σ) {geometry : StreamingGeometry} (hg : geometry.Advances)
    (a : FastConformerSttAdapter) (now : Nat → ℚ) : Synced m geometry a now []
      { hearing := .fresh m a, buffer := .fresh, schedule := .fresh geometry, pending := [] } := by
  have hnil : blockFeatures m a.samplesPerBlock [] = [] := by
    simp [blockFeatures, fullBlocks]
  refine ⟨by simp [leftover], by rw [hnil]; exact FeatureBuffer.holds_fresh, Nat.zero_le _,
    fun _ => rfl, rfl, [], ?_, rfl⟩
  refine .done ?_
  have hpos := (ChunkSchedule.chunk_pos (s := .fresh geometry) hg).1
  rw [hnil, List.length_nil]
  omega

/-- One frame more. -/
theorem synced_frame (m : SpeechModel φ σ) {geometry : StreamingGeometry} (hg : geometry.Advances)
    {a : FastConformerSttAdapter} (ha : 1 ≤ a.samplesPerBlock) {now : Nat → ℚ}
    {samples more : List ℚ} {t : Transcriber φ σ} (h : Synced m geometry a now samples t)
    {frame : AudioFrame} (hf : resampleTo16k frame.pcm frame.sample_rate = .ok more) :
    ∃ t', onFrame m geometry a.language now a.samplesPerBlock t frame = .ok t' ∧
      Synced m geometry a now (samples ++ more) t' := by
  obtain ⟨plans, hoffers, hhearing⟩ := h.steps
  obtain ⟨buffer, hloop, hholds, horigin⟩ := blockLoop_eq m ha
    (Nat.lt_succ_self (t.pending ++ more).length) h.holds
  rw [h.pending] at hloop
  rw [h.pending, ← blockFeatures_append m ha] at hholds
  rw [← leftover_append ha] at hloop
  have hgt : t.schedule.geometry.Advances := h.kept ▸ hg
  obtain ⟨schedule, batch, hoffer⟩ := ChunkSchedule.offer_ends hgt buffer.available
  have htotal : buffer.available =
      (blockFeatures m a.samplesPerBlock (samples ++ more)).length := hholds.total
  have hbatch := ChunkSchedule.offer_offers hoffer
  rw [htotal] at hbatch
  obtain ⟨hwithin, hretain, hstarted⟩ := hbatch.within hgt h.started
  -- the batch reads only what the buffer still holds
  have hreads : ∀ p ∈ batch, buffer.window.origin ≤ p.cache_start ∧ 0 < p.stop ∧
      p.stop ≤ (blockFeatures m a.samplesPerBlock (samples ++ more)).length := by
    intro p hp
    obtain ⟨h1, h2, h3⟩ := hwithin p hp
    exact ⟨horigin ▸ h.retained.trans h1, h2, h3⟩
  have hrun := runPlans_eq m geometry a.language now hholds hreads t.hearing
  refine ⟨_, onFrame_eq_ok.mpr ⟨_, _, _, _, _, _, hf, h.pending ▸ hloop, hoffer, hrun,
    rfl⟩, ?_⟩
  have hle : (blockFeatures m a.samplesPerBlock samples).length ≤
      (blockFeatures m a.samplesPerBlock (samples ++ more)).length := by
    rw [blockFeatures_append m ha, List.length_append]
    omega
  have hback : buffer.window.origin ≤ schedule.retainFrom :=
    (horigin ▸ h.retained).trans hretain
  refine ⟨rfl, ?_, ?_, hstarted, ?_, plans ++ batch, hoffers.trans hle hbatch, ?_⟩
  · simp only
    split
    · exact hholds
    · exact hholds.discardBefore _
  · simp only
    split
    · exact hback
    · show min (max _ _) _ ≤ _
      omega
  · rw [hbatch.geometry, h.kept]
  · have hearlier : plans.foldl (listenTo m geometry a.language now
        (blockFeatures m a.samplesPerBlock (samples ++ more))) (.fresh m a) =
        t.hearing := by
      rw [hhearing, blockFeatures_append m ha, listenTo_append]
      exact fun p hp => ((hoffers.within hg fun _ => rfl).1 p hp).2.2
    rw [List.foldl_append, hearlier]

theorem synced_frames (m : SpeechModel φ σ) {geometry : StreamingGeometry} (hg : geometry.Advances)
    {a : FastConformerSttAdapter} (ha : 1 ≤ a.samplesPerBlock) {now : Nat → ℚ} {samples : List ℚ}
    {t : Transcriber φ σ} (h : Synced m geometry a now samples t) (frames : List AudioFrame)
    (hf : ∀ f ∈ frames, AudioFrame16k f) :
    ∃ t', frames.foldlM (onFrame m geometry a.language now a.samplesPerBlock) t = .ok t' ∧
      Synced m geometry a now (samples ++ frames.flatMap samplesOf) t' := by
  induction frames generalizing samples t with
  | nil => exact ⟨t, rfl, by simpa using h⟩
  | cons frame frames ih =>
    obtain ⟨u, hu, hsync⟩ := synced_frame m hg ha h
      (resample_16k (hf frame List.mem_cons_self))
    obtain ⟨t', ht, hsync'⟩ := ih hsync fun f hf' => hf f (List.mem_cons_of_mem _ hf')
    refine ⟨t', ?_, ?_⟩
    · rw [List.foldlM_cons, hu]
      exact ht
    · rw [List.flatMap_cons, ← List.append_assoc]
      exact hsync'

/-- The samples of some frames at 16 kHz. -/
def heardSamples (frames : List AudioFrame) : List ℚ :=
  frames.flatMap fun frame => (resampleTo16k frame.pcm frame.sample_rate).toOption.getD []

theorem heardSamples_snoc (frames : List AudioFrame) {frame : AudioFrame} {samples : List ℚ}
    (h : resampleTo16k frame.pcm frame.sample_rate = .ok samples) :
    heardSamples (frames ++ [frame]) = heardSamples frames ++ samples := by
  rw [heardSamples, List.flatMap_append, List.flatMap_singleton, h]
  rfl

/-- A preprocess loop that ends has blocks of some samples. -/
theorem blockLoop_pos {m : SpeechModel φ σ} {n fuel : Nat} {pending pending' : List ℚ}
    {buffer buffer' : FeatureBuffer φ}
    (h : blockLoop m n fuel pending buffer = some (pending', buffer')) : 1 ≤ n := by
  induction fuel generalizing pending buffer with
  | zero => cases h
  | succ fuel ih =>
    unfold blockLoop at h
    split at h
    · exact ih h
    · omega

/-- Whatever the adapter has taken keeps it synced. -/
theorem synced_of_run {m : SpeechModel φ σ} {geometry : StreamingGeometry} (hg : geometry.Advances)
    {a : FastConformerSttAdapter} {now : Nat → ℚ} {frames : List AudioFrame} {t : Transcriber φ σ}
    (hrun : frames.foldlM (onFrame m geometry a.language now a.samplesPerBlock)
      { hearing := .fresh m a, buffer := .fresh, schedule := .fresh geometry, pending := [] } = .ok t) :
    Synced m geometry a now (heardSamples frames) t := by
  refine foldlM_induction (P := fun frames t => Synced m geometry a now (heardSamples frames) t)
    ?_ (synced_start m hg a now) hrun
  intro frames t frame t' hsync hframe
  obtain ⟨samples, _, _, _, _, _, hsamples, hloop, -⟩ := onFrame_eq_ok.mp hframe
  obtain ⟨u, hu, hsync'⟩ := synced_frame m hg (blockLoop_pos hloop) hsync hsamples
  rw [hu] at hframe
  cases hframe
  rw [heardSamples_snoc frames hsamples]
  exact hsync'

/-- The end of the stream takes the last step of the reference. -/
theorem atEnd_eq (m : SpeechModel φ σ) {geometry : StreamingGeometry} (hg : geometry.Advances)
    {a : FastConformerSttAdapter} {now : Nat → ℚ} {samples : List ℚ}
    {t : Transcriber φ σ} (h : Synced m geometry a now samples t) :
    ∃ h', atEnd m geometry a.language now t = .ok h' ∧
      reference m a geometry now samples = some h' := by
  obtain ⟨plans, hoffers, hhearing⟩ := h.steps
  -- the whole stream, with the features of the leftover samples
  have hholds : (if t.pending = [] then t.buffer else t.buffer.append (m.featurise t.pending)).Holds
      (allFeatures m a.samplesPerBlock samples) := by
    rw [allFeatures, h.pending]
    split
    · simpa using h.holds
    · exact h.holds.append _
  have horigin : (if t.pending = [] then t.buffer
      else t.buffer.append (m.featurise t.pending)).window.origin = t.buffer.window.origin := by
    split <;> rfl
  have hoffer : (ChunkSchedule.fresh geometry).offer
      (blockFeatures m a.samplesPerBlock samples).length = some (t.schedule, plans) := by
    obtain ⟨schedule, plans', hr⟩ := ChunkSchedule.offer_ends (s := .fresh geometry) hg
      (blockFeatures m a.samplesPerBlock samples).length
    obtain ⟨rfl, rfl⟩ := (ChunkSchedule.offer_offers hr).unique hoffers
    exact hr
  have hsteps : plans.foldl (listenTo m geometry a.language now
      (allFeatures m a.samplesPerBlock samples)) (.fresh m a) = t.hearing := by
    rw [hhearing, allFeatures, listenTo_append]
    exact fun p hp => ((hoffers.within hg fun _ => rfl).1 p hp).2.2
  unfold atEnd reference
  simp only [hoffer, hsteps, Option.bind_eq_bind, Option.bind_some]
  generalize (if t.pending = [] then t.buffer else t.buffer.append (m.featurise t.pending)) = buffer
    at hholds horigin
  rw [show buffer.available = (allFeatures m a.samplesPerBlock samples).length from hholds.total]
  unfold ChunkSchedule.flush
  split_ifs with hle
  · exact ⟨_, rfl, rfl⟩
  · have hback : buffer.window.origin ≤ t.schedule.cursor - min t.schedule.cache t.schedule.cursor := by
      have hretained := h.retained
      unfold ChunkSchedule.retainFrom at hretained
      omega
    have hslice := hholds.slice hback le_rfl (by omega)
    simp only [ChunkSchedule.plan, stepFrames]
    rw [hslice]
    exact ⟨_, rfl, rfl⟩

/-! ## The steps of the ideal -/

theorem encode_plans (m : SpeechModel φ σ) (features : List φ) (plans : List (ChunkPlan × Bool))
    (state : σ) :
    (encode m features state plans).map (fun step => (step.plan, step.keep_all_outputs)) = plans := by
  induction plans generalizing state with
  | nil => rfl
  | cons p plans ih =>
    rw [encode, List.map_cons, ih]

theorem encode_inputs (m : SpeechModel φ σ) (features : List φ) (plans : List (ChunkPlan × Bool))
    (state : σ) : ∀ step ∈ encode m features state plans,
      step.input = List.replicate step.plan.zero_pad m.zero ++
        (features.take step.plan.stop).drop step.plan.cache_start := by
  induction plans generalizing state with
  | nil =>
    intro step hstep
    cases hstep
  | cons p plans ih =>
    intro step hstep
    rcases List.mem_cons.mp hstep with rfl | hstep
    · rfl
    · exact ih _ step hstep

theorem encode_append (m : SpeechModel φ σ) (geometry : StreamingGeometry) (language : String)
    (now : Nat → ℚ) (features : List φ) (plans : List ChunkPlan) (rest : List (ChunkPlan × Bool))
    (h : Hearing φ σ) :
    (plans.foldl (listenTo m geometry language now features) h).steps ++
        encode m features (plans.foldl (listenTo m geometry language now features) h).state rest =
      h.steps ++ encode m features h.state (plans.map (·, false) ++ rest) := by
  induction plans generalizing h with
  | nil => rfl
  | cons plan plans ih =>
    rw [List.foldl_cons, ih, List.map_cons, List.cons_append, encode, listenTo, Hearing.listen,
      emitInterim_steps, emitInterim_state]
    simp [Hearing.runStep, stepFrames]

/-- The reference takes the steps of the ideal. -/
theorem reference_ideal {m : SpeechModel φ σ} {a : FastConformerSttAdapter}
    {geometry : StreamingGeometry} {now : Nat → ℚ} {samples : List ℚ} {h : Hearing φ σ}
    (href : reference m a geometry now samples = some h) :
    IdealSteps m geometry a.samplesPerBlock samples h.steps := by
  unfold reference at href
  obtain ⟨⟨schedule, plans⟩, hoffer, href⟩ := Option.bind_eq_some_iff.mp href
  have hsteps : h.steps = encode m (allFeatures m a.samplesPerBlock samples) m.initial
      (plans.map (·, false) ++ (schedule.flush
        (allFeatures m a.samplesPerBlock samples).length).2.toList.map (·, true)) := by
    have happend := fun rest => encode_append m geometry a.language now
      (allFeatures m a.samplesPerBlock samples) plans rest (.fresh m a)
    simp only at href
    cases hflush : (schedule.flush (allFeatures m a.samplesPerBlock samples).length).2 with
    | none =>
      rw [hflush] at href
      cases href
      have hall := happend []
      rw [encode, List.append_nil] at hall
      rw [emitFinal_steps, hall]
      rfl
    | some plan =>
      rw [hflush] at href
      cases href
      rw [emitFinal_steps]
      exact happend [(plan, true)]
  have hplans := encode_plans m (allFeatures m a.samplesPerBlock samples)
    (plans.map (·, false) ++ (schedule.flush
      (allFeatures m a.samplesPerBlock samples).length).2.toList.map (·, true)) m.initial
  rw [← hsteps] at hplans
  refine ⟨⟨schedule, plans, hoffer, hplans⟩, ?_, ?_⟩
  · rw [hsteps]
    exact encode_inputs m _ _ _
  · rw [hplans]
    exact hsteps

/-! ## The times of the hypotheses -/

theorem hypothesis_untimed (geometry : StreamingGeometry) (language : String) (now : Nat → ℚ)
    (h : Hearing φ σ) (plan : ChunkPlan) (is_final : Bool) :
    (h.hypothesis geometry language now plan is_final).untimed =
      h.untimed.hypothesis geometry language (fun _ => 0) plan is_final := by
  simp [Hearing.hypothesis, Hearing.untimed]

theorem emitInterim_untimed (geometry : StreamingGeometry) (language : String) (now : Nat → ℚ)
    (h : Hearing φ σ) (plan : ChunkPlan) : (h.emitInterim geometry language now plan).untimed =
      h.untimed.emitInterim geometry language (fun _ => 0) plan := by
  unfold Hearing.emitInterim
  by_cases hnew : h.text ≠ "" ∧ h.text ≠ h.last_emitted
  · rw [if_pos hnew, if_pos (show h.untimed.text ≠ "" ∧ h.untimed.text ≠ h.untimed.last_emitted
      from hnew), hypothesis_untimed]
    rfl
  · rw [if_neg hnew, if_neg (show ¬ (h.untimed.text ≠ "" ∧ h.untimed.text ≠ h.untimed.last_emitted)
      from hnew)]

theorem emitFinal_untimed (geometry : StreamingGeometry) (language : String) (now : Nat → ℚ)
    (h : Hearing φ σ) : (h.emitFinal geometry language now).untimed =
      h.untimed.emitFinal geometry language (fun _ => 0) := by
  unfold Hearing.emitFinal
  cases hp : h.last_plan with
  | none => rw [show h.untimed.last_plan = none from hp]
  | some plan =>
    rw [show h.untimed.last_plan = some plan from hp]
    simp only
    by_cases htext : h.text ≠ ""
    · rw [if_pos htext, if_pos (show h.untimed.text ≠ "" from htext), hypothesis_untimed]
    · rw [if_neg htext, if_neg (show ¬ h.untimed.text ≠ "" from htext)]

theorem listenTo_untimed (m : SpeechModel φ σ) (geometry : StreamingGeometry) (language : String)
    (now : Nat → ℚ) (features : List φ) (plans : List ChunkPlan) (h : Hearing φ σ) :
    (plans.foldl (listenTo m geometry language now features) h).untimed =
      plans.foldl (listenTo m geometry language (fun _ => 0) features) h.untimed := by
  induction plans generalizing h with
  | nil => rfl
  | cons plan plans ih =>
    rw [List.foldl_cons, List.foldl_cons, ih, listenTo, Hearing.listen, emitInterim_untimed]
    rfl

/-- The clock changes nothing but the times. -/
theorem reference_untimed (m : SpeechModel φ σ) (a : FastConformerSttAdapter)
    (geometry : StreamingGeometry) (now : Nat → ℚ) (samples : List ℚ) :
    (reference m a geometry now samples).map Hearing.untimed =
      reference m a geometry (fun _ => 0) samples := by
  unfold reference
  cases (ChunkSchedule.fresh geometry).offer (blockFeatures m a.samplesPerBlock samples).length with
  | none => rfl
  | some r =>
    obtain ⟨schedule, plans⟩ := r
    simp only [Option.bind_eq_bind, Option.bind_some]
    have hstart : (Hearing.fresh m a).untimed = Hearing.fresh m a := rfl
    cases (schedule.flush (allFeatures m a.samplesPerBlock samples).length).2 with
    | none =>
      show some _ = some _
      rw [emitFinal_untimed, listenTo_untimed, hstart]
    | some plan =>
      show some _ = some _
      rw [emitFinal_untimed, ← hstart, ← listenTo_untimed]
      rfl

/-- However the samples are cut into frames, the adapter raises nothing, takes
the steps of the ideal on its inputs, and yields the hypotheses of the
reference. So two framings of the same samples yield the same texts. -/
theorem framing_never_shows (m : SpeechModel φ σ) (a : FastConformerSttAdapter)
    (geometry : StreamingGeometry) (hgeometry : a.geometry = some geometry)
    (hadvances : geometry.Advances) (hblock : 1 ≤ a.samplesPerBlock) (now : Nat → ℚ)
    (frames : List AudioFrame) (h16k : ∀ f ∈ frames, AudioFrame16k f) :
    ∃ h, transcribe m now a frames = .ok h ∧
      IdealSteps m geometry a.samplesPerBlock (frames.flatMap samplesOf) h.steps ∧
      reference m a geometry (fun _ => 0) (frames.flatMap samplesOf) = some h.untimed ∧
      ∀ (now' : Nat → ℚ) (frames' : List AudioFrame), (∀ f ∈ frames', AudioFrame16k f) →
        frames'.flatMap samplesOf = frames.flatMap samplesOf →
        ∃ h', transcribe m now' a frames' = .ok h' ∧ h'.steps = h.steps ∧
          h'.yielded.map (·.text) = h.yielded.map (·.text) := by
  have hall : ∀ (now : Nat → ℚ) (frames : List AudioFrame), (∀ f ∈ frames, AudioFrame16k f) →
      ∃ h, transcribe m now a frames = .ok h ∧
        reference m a geometry (fun _ => 0) (frames.flatMap samplesOf) = some h.untimed := by
    intro now frames hf
    obtain ⟨t, ht, hsync⟩ := synced_frames m hadvances hblock
      (synced_start m hadvances a now) frames hf
    obtain ⟨h, hend, href⟩ := atEnd_eq m hadvances hsync
    rw [List.nil_append] at href
    refine ⟨h, ?_, ?_⟩
    · simp only [transcribe, hgeometry]
      rw [ht]
      exact hend
    · rw [← reference_untimed m a geometry now, href, Option.map_some]
  obtain ⟨h, hrun, href⟩ := hall now frames h16k
  have hideal : IdealSteps m geometry a.samplesPerBlock (frames.flatMap samplesOf) h.untimed.steps :=
    reference_ideal href
  refine ⟨h, hrun, hideal, href, ?_⟩
  intro now' frames' hf' hsame
  obtain ⟨h', hrun', href'⟩ := hall now' frames' hf'
  rw [hsame, href, Option.some.injEq] at href'
  have htexts : ∀ x : Hearing φ σ, x.untimed.yielded.map (·.text) = x.yielded.map (·.text) := by
    intro x
    simp [Hearing.untimed, Function.comp_def]
  refine ⟨h', hrun', ?_, ?_⟩
  · exact (congrArg Hearing.steps href').symm
  · rw [← htexts h', ← href', htexts]

/-! ## A talk in two frames -/

/-- A model with one feature frame for each block. It hears a word a step. -/
def wordModel : SpeechModel (List ℚ) Nat where
  featurise block := [block]
  zero := []
  initial := 0
  streamStep n _ _ _ := (n + 1, .texts [" ".intercalate (List.replicate (n + 1) "so")])

def wordGeometry : StreamingGeometry where
  chunk_size_first := 2
  chunk_size := 2
  shift_size_first := 1
  shift_size := 2
  pre_encode_cache_first := 0
  pre_encode_cache := 1
  drop_extra_pre_encoded := 1

/-- Two samples a block, and four blocks. -/
def twoBlocks : FastConformerSttAdapter :=
  { geometry := some wordGeometry, preprocess_block_s := 2 / 16000 }

theorem pcm_rate_pos : 0 < 16000 := by decide

/-- Eight samples, in one frame of three and one of five. -/
def threeAndFive : List AudioFrame :=
  [⟨[0, 1, 0, 2, 0, 3], 16000, pcm_rate_pos, 0, 0⟩,
    ⟨[0, 4, 0, 5, 0, 6, 0, 7, 0, 8], 16000, pcm_rate_pos, 3 / 16000, 1⟩]

theorem threeAndFive_16k : ∀ f ∈ threeAndFive, AudioFrame16k f := by
  intro f hf
  simp only [threeAndFive, List.mem_cons, List.not_mem_nil, or_false] at hf
  rcases hf with rfl | rfl <;> exact ⟨rfl, _, rfl⟩

theorem threeAndFive_texts : (transcribe wordModel (fun n => n) twoBlocks threeAndFive).toOption.map
    (fun h => h.steps.map (·.text)) = some ["so", "so so", "so so so"] := by
  decide +kernel

theorem framing_never_shows_in_two_frames :
    ∃ h, transcribe wordModel (fun n => n) twoBlocks threeAndFive = .ok h ∧
      h.steps.map (·.text) = ["so", "so so", "so so so"] ∧
      IdealSteps wordModel wordGeometry 2 (threeAndFive.flatMap samplesOf) h.steps ∧
      reference wordModel twoBlocks wordGeometry (fun _ => 0) (threeAndFive.flatMap samplesOf) =
        some h.untimed := by
  have hblock : twoBlocks.samplesPerBlock = 2 := by decide +kernel
  obtain ⟨h, hrun, hideal, href, -⟩ := framing_never_shows wordModel twoBlocks wordGeometry rfl
    ⟨by decide, by decide, by decide, by decide⟩ (by rw [hblock]; decide) (fun n => n) threeAndFive
    threeAndFive_16k
  have htexts := threeAndFive_texts
  rw [hrun] at htexts
  exact ⟨h, hrun, Option.some.inj htexts, hblock ▸ hideal, href⟩

end lad_translate.stt_fastconformer
