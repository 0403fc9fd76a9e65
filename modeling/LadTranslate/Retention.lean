-- How many frames the feature buffer holds. A batch drops what the next step
-- does not read, so after it the buffer begins with the history of that step,
-- and the step is one that could not run yet.
import LadTranslate.Coverage
import LadTranslate.Framing

open blocks fallible lad_translate.audio

namespace lad_translate.stt_fastconformer

variable {φ σ : Type}

/-! ## After an offer -/

/-- An offer ends with a step that the frames do not suffice for. -/
theorem ChunkSchedule.Offers.ends {available : Nat} {s t : ChunkSchedule} {plans : List ChunkPlan}
    (h : ChunkSchedule.Offers available s plans t) : available < t.cursor + t.chunk := by
  induction h with
  | done hstop => exact hstop
  | next _ _ ih => exact ih

/-- The most frames that the buffer holds, and one. -/
def StreamingGeometry.heldBound (g : StreamingGeometry) : Nat :=
  max g.chunk_size_first (g.chunk_size + g.pre_encode_cache)

/-- The buffer of a stream begins with the oldest frame that the next step could
need, and that step could not run yet. -/
structure Trimmed (geometry : StreamingGeometry) (features : List φ) (s : ChunkSchedule)
    (b : FeatureBuffer φ) : Prop where
  kept : s.geometry = geometry
  started : s.Started
  holds : b.Holds features
  origin : b.window.origin = s.retainFrom
  within : s.cursor ≤ features.length
  waits : features.length < s.cursor + s.chunk

theorem trimmed_fresh {geometry : StreamingGeometry} (hg : geometry.Advances) :
    Trimmed geometry ([] : List φ) (.fresh geometry) .fresh := by
  refine ⟨rfl, fun _ => rfl, FeatureBuffer.holds_fresh, ?_, le_rfl, ?_⟩
  · exact (Nat.zero_sub _).symm
  · have hpos := (ChunkSchedule.chunk_pos (s := .fresh geometry) hg).1
    rw [List.length_nil]
    omega

/-- The buffer holds its stream from the origin on. -/
theorem FeatureBuffer.Holds.length {b : FeatureBuffer φ} {features : List φ}
    (h : b.Holds features) : (b.frames.getD []).length = features.length - b.window.origin := by
  rw [h.frames, List.length_drop]

/-- What a trimmed buffer holds is less than one chunk and its history. -/
theorem Trimmed.held_lt {geometry : StreamingGeometry} {features : List φ} {s : ChunkSchedule}
    {b : FeatureBuffer φ} (h : Trimmed geometry features s b) :
    (b.frames.getD []).length < geometry.heldBound := by
  obtain ⟨rfl, hstarted, hholds, horigin, hwithin, hwaits⟩ := h
  rw [hholds.length, horigin]
  unfold ChunkSchedule.retainFrom StreamingGeometry.heldBound
  rw [ChunkSchedule.chunk_eq, StreamingGeometry.chunkAt] at hwaits
  rw [ChunkSchedule.cache_eq, StreamingGeometry.cacheAt]
  by_cases hstep : s.step = 0
  · rw [if_pos hstep, hstarted hstep, Nat.zero_add] at hwaits
    omega
  · rw [if_neg hstep] at hwaits ⊢
    omega

/-- A batch on some more features trims the buffer again, and its steps read
what the buffer holds. -/
theorem Trimmed.batch {geometry : StreamingGeometry} (hg : geometry.Advances)
    {features more : List φ} {s s' : ChunkSchedule} {b c : FeatureBuffer φ}
    {plans : List ChunkPlan} (h : Trimmed geometry features s b)
    (hholds : c.Holds (features ++ more)) (horigin : c.window.origin = b.window.origin)
    (hoffer : s.offer c.available = some (s', plans)) :
    (∀ p ∈ plans, c.window.origin ≤ p.cache_start ∧ 0 < p.stop ∧
      p.stop ≤ (features ++ more).length) ∧
    Trimmed geometry (features ++ more) s'
      (if plans = [] then c else c.discardBefore s'.retainFrom) := by
  obtain ⟨rfl, hstarted, -, hat, hwithin, -⟩ := h
  have htotal : c.available = (features ++ more).length := hholds.total
  have hoffers := ChunkSchedule.offer_offers hoffer
  rw [htotal] at hoffers
  obtain ⟨hreads, hback, hstarted'⟩ := hoffers.within hg hstarted
  have hcursor : s'.cursor ≤ (features ++ more).length := by
    refine (hoffers.cursor_le hg).trans (max_le ?_ le_rfl)
    rw [List.length_append]
    omega
  refine ⟨?_, hoffers.geometry, hstarted', ?_, ?_, hcursor, hoffers.ends⟩
  · intro p hp
    rw [horigin, hat]
    exact hreads p hp
  · split
    · exact hholds
    · exact hholds.discardBefore _
  · split
    · rename_i hnil
      subst hnil
      cases hoffers
      rw [horigin, hat]
    · -- the history of the next step has arrived, and it is not before the origin
      have hwindow : (c.discardBefore s'.retainFrom).window.origin =
          min (max s'.retainFrom c.window.origin) c.window.total := rfl
      have hretain : s'.retainFrom ≤ s'.cursor := Nat.sub_le _ _
      have hcount := hholds.total
      rw [hwindow, horigin, hat]
      omega

/-! ## The loop -/

/-- The schedule and the buffer of a stream. -/
structure Intake (φ : Type) where
  schedule : ChunkSchedule
  buffer : FeatureBuffer φ

/-- One turn of the loop: append, offer, read the frames of every step, and drop
once when there were steps. -/
def Intake.take (t : Intake φ) (block : List φ) : Except Fault (Intake φ) := do
  let buffer := t.buffer.append block
  let (schedule, plans) ← orDiverge (t.schedule.offer buffer.available)
  let _ ← plans.mapM fun plan => (buffer.slice plan.cache_start plan.stop).mapError Fault.raised
  return ⟨schedule, if plans = [] then buffer else buffer.discardBefore schedule.retainFrom⟩

/-- A turn raises nothing and leaves the buffer trimmed. -/
theorem take_trims {geometry : StreamingGeometry} (hg : geometry.Advances) {features : List φ}
    {t : Intake φ} (h : Trimmed geometry features t.schedule t.buffer) (block : List φ) :
    ∃ u, t.take block = .ok u ∧ Trimmed geometry (features ++ block) u.schedule u.buffer := by
  have hgt : t.schedule.geometry.Advances := h.kept ▸ hg
  obtain ⟨s', plans, hoffer⟩ := ChunkSchedule.offer_ends hgt (t.buffer.append block).available
  have hholds := h.holds.append block
  obtain ⟨hreads, htrimmed⟩ := h.batch hg hholds rfl hoffer
  obtain ⟨slices, hslices⟩ := mapM_ok (l := plans)
    (f := fun plan => ((t.buffer.append block).slice plan.cache_start plan.stop).mapError Fault.raised)
    (by
      intro p hp
      obtain ⟨horigin, hpos, hstop⟩ := hreads p hp
      exact ⟨_, mapError_eq_ok.mpr (hholds.slice horigin hstop hpos)⟩)
  refine ⟨⟨s', if plans = [] then t.buffer.append block
    else (t.buffer.append block).discardBefore s'.retainFrom⟩, ?_, htrimmed⟩
  unfold Intake.take
  refine bind_eq_ok.mpr ⟨(s', plans), orDiverge_eq_ok.mpr hoffer, ?_⟩
  exact bind_eq_ok.mpr ⟨slices, hslices, rfl⟩

theorem takes_trim {geometry : StreamingGeometry} (hg : geometry.Advances) {features : List φ}
    {t : Intake φ} (h : Trimmed geometry features t.schedule t.buffer) (blocks : List (List φ)) :
    ∃ u, blocks.foldlM Intake.take t = .ok u ∧
      Trimmed geometry (features ++ blocks.flatten) u.schedule u.buffer := by
  induction blocks generalizing features t with
  | nil => exact ⟨t, rfl, by simpa using h⟩
  | cons block blocks ih =>
    obtain ⟨v, hv, hnext⟩ := take_trims hg h block
    obtain ⟨u, hu, hlast⟩ := ih hnext
    refine ⟨u, ?_, ?_⟩
    · rw [List.foldlM_cons, hv]
      exact hu
    · rw [List.flatten_cons, ← List.append_assoc]
      exact hlast

/-- The loop of the adapter trims its buffer too. -/
theorem trimmed_of_run {m : SpeechModel φ σ} {geometry : StreamingGeometry} (hg : geometry.Advances)
    {a : FastConformerSttAdapter} {now : Nat → ℚ} {frames : List AudioFrame} {t : Transcriber φ σ}
    (hrun : frames.foldlM (onFrame m geometry a.language now a.samplesPerBlock)
      { hearing := .fresh m a, buffer := .fresh, schedule := .fresh geometry, pending := [] } = .ok t) :
    t.pending = leftover a.samplesPerBlock (heardSamples frames) ∧
      Trimmed geometry (blockFeatures m a.samplesPerBlock (heardSamples frames)) t.schedule
        t.buffer := by
  refine foldlM_induction (P := fun frames t =>
    t.pending = leftover a.samplesPerBlock (heardSamples frames) ∧
      Trimmed geometry (blockFeatures m a.samplesPerBlock (heardSamples frames)) t.schedule
        t.buffer) ?_ ?_ hrun
  · intro frames t frame t' ⟨hpending, htrimmed⟩ hframe
    obtain ⟨samples, pending, buffer, schedule, plans, hearing, hsamples, hloop, hoffer, -, rfl⟩ :=
      onFrame_eq_ok.mp hframe
    have hpos := blockLoop_pos hloop
    obtain ⟨buffer', hrun', hholds, horigin⟩ := blockLoop_eq m hpos
      (Nat.lt_succ_self (t.pending ++ samples).length) htrimmed.holds
    rw [hrun', Option.some.injEq, Prod.mk.injEq] at hloop
    obtain ⟨rfl, rfl⟩ := hloop
    rw [heardSamples_snoc frames hsamples, leftover_append hpos (heardSamples frames) samples,
      blockFeatures_append m hpos, ← hpending]
    exact ⟨rfl, (htrimmed.batch hg hholds horigin hoffer).2⟩
  · have hnil : blockFeatures m a.samplesPerBlock (heardSamples []) = [] := by
      simp [blockFeatures, heardSamples, fullBlocks]
    rw [hnil]
    exact ⟨by simp [leftover, heardSamples], trimmed_fresh hg⟩

/-- After every turn the buffer holds less than one chunk and its history, and
it has counted every frame. The loop of the adapter makes such turns. -/
theorem held_frames_are_bounded (g : StreamingGeometry) (hg : g.Advances) :
    (∀ blocks : List (List φ), ∃ t, blocks.foldlM Intake.take ⟨.fresh g, .fresh⟩ = .ok t ∧
      (t.buffer.frames.getD []).length < max g.chunk_size_first (g.chunk_size + g.pre_encode_cache) ∧
      t.buffer.window.held = (t.buffer.frames.getD []).length ∧
      t.buffer.available = blocks.flatten.length) ∧
    ∀ (m : SpeechModel φ σ) (a : FastConformerSttAdapter) (now : Nat → ℚ)
      (frames : List AudioFrame) (t : Transcriber φ σ),
      frames.foldlM (onFrame m g a.language now a.samplesPerBlock)
        { hearing := .fresh m a, buffer := .fresh, schedule := .fresh g, pending := [] } = .ok t →
      (t.buffer.frames.getD []).length < max g.chunk_size_first (g.chunk_size + g.pre_encode_cache) ∧
      t.buffer.available = (blockFeatures m a.samplesPerBlock (heardSamples frames)).length := by
  constructor
  · intro blocks
    obtain ⟨t, ht, htrimmed⟩ := takes_trim hg (t := ⟨.fresh g, .fresh⟩) (trimmed_fresh hg) blocks
    rw [List.nil_append] at htrimmed
    refine ⟨t, ht, htrimmed.held_lt, ?_, htrimmed.holds.total⟩
    rw [htrimmed.holds.length, ← htrimmed.holds.total]
    rfl
  · intro m a now frames t ht
    obtain ⟨-, htrimmed⟩ := trimmed_of_run hg ht
    exact ⟨htrimmed.held_lt, htrimmed.holds.total⟩

/-- After bursts of one, seven and two frames the buffer holds less than five. -/
theorem held_frames_are_bounded_in_bursts :
    ∃ t, [[0], [1, 2, 3, 4, 5, 6, 7], [8, 9]].foldlM Intake.take
      ⟨.fresh ⟨2, 3, 1, 3, 0, 2, 1, 8⟩, .fresh⟩ = .ok t ∧
        (t.buffer.frames.getD []).length < 5 := by
  obtain ⟨t, ht, hheld, -⟩ := (held_frames_are_bounded (φ := Nat) (σ := Nat)
    ⟨2, 3, 1, 3, 0, 2, 1, 8⟩ ⟨by decide, by decide, by decide, by decide⟩).1
      [[0], [1, 2, 3, 4, 5, 6, 7], [8, 9]]
  exact ⟨t, ht, hheld⟩

end lad_translate.stt_fastconformer
