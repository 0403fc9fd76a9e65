-- How many new frames the step at the end of a stream is given. The leftover
-- samples become features after the last offer, so the flush takes what that
-- offer left of a chunk and their features besides, and both may be nearly a
-- chunk.
import LadTranslate.Coverage
import LadTranslate.Framing

open blocks fallible lad_translate.audio

namespace lad_translate.stt_fastconformer

variable {φ σ : Type}

/-! ## What the offers leave -/

/-- The chunk size of the step that waits for more than `n` frames. -/
def StreamingGeometry.chunkAfter (g : StreamingGeometry) (n : Nat) : Nat :=
  if n < g.chunk_size_first then g.chunk_size_first else g.chunk_size

/-- How many of `n` frames are past the shift of the last full step. -/
def StreamingGeometry.unconsumed (g : StreamingGeometry) (n : Nat) : Nat :=
  if n < g.chunk_size_first then n
  else if n < g.shift_size_first + g.chunk_size then n - g.shift_size_first
  else g.chunk_size - g.shift_size + (n - g.shift_size_first - g.chunk_size) % g.shift_size

namespace ChunkSchedule

variable {s t : ChunkSchedule} {plans : List ChunkPlan} {n : Nat}

/-- The steady steps go on by one shift each. -/
theorem Offers.steady_left (hg : s.geometry.Advances) (hstep : s.step ≠ 0)
    (h : Offers n s plans t) (hs : s.cursor ≤ n) :
    t.step ≠ 0 ∧ n - t.cursor = if n < s.cursor + s.geometry.chunk_size then n - s.cursor
      else s.geometry.chunk_size - s.geometry.shift_size +
        (n - s.cursor - s.geometry.chunk_size) % s.geometry.shift_size := by
  induction h with
  | @done s hstop =>
    rw [chunk_eq, StreamingGeometry.chunkAt, if_neg hstep] at hstop
    rw [if_pos hstop]
    exact ⟨hstep, rfl⟩
  | @next s t plans hle rest ih =>
    have hchunk := chunk_eq s
    rw [StreamingGeometry.chunkAt, if_neg hstep] at hchunk
    have hshift : s.shift = s.geometry.shift_size := by
      simp [shift, ChunkSchedule.sizes, hstep]
    have hpos := hg.steady_pos
    have hbelow := hg.steady_le
    have hadvance : s.advance.cursor = s.cursor + s.geometry.shift_size := by
      rw [← hshift]
      rfl
    have hgeometry : s.advance.geometry = s.geometry := rfl
    obtain ⟨hlast, hleft⟩ := ih hg (Nat.succ_ne_zero s.step) (by omega)
    refine ⟨hlast, ?_⟩
    rw [hgeometry, hadvance] at hleft
    have hpast : ¬ n < s.cursor + s.geometry.chunk_size := by omega
    rw [if_neg hpast]
    -- the rest after the chunk, by whether it is one more shift
    by_cases hmore : n < s.cursor + s.geometry.shift_size + s.geometry.chunk_size
    · rw [if_pos hmore] at hleft
      rw [hleft, Nat.mod_eq_of_lt (by omega)]
      omega
    · rw [if_neg hmore] at hleft
      have hmod := Nat.mod_eq_sub_mod (a := n - s.cursor - s.geometry.chunk_size)
        (b := s.geometry.shift_size) (by omega)
      have hsame : n - (s.cursor + s.geometry.shift_size) - s.geometry.chunk_size =
          n - s.cursor - s.geometry.chunk_size - s.geometry.shift_size := by omega
      rw [hleft, hmod, hsame]

/-- What an offer to a fresh schedule leaves, and the chunk that it waits for. -/
theorem Offers.left {g : StreamingGeometry} (hg : g.Advances) (h : Offers n (.fresh g) plans t) :
    n - t.cursor = g.unconsumed n ∧ t.chunk = g.chunkAfter n ∧ t.cursor ≤ n := by
  have hcursor := h.cursor_le hg
  have hgeometry := h.geometry
  have hzero : (fresh g).cursor = 0 := rfl
  have hfirst : (fresh g).chunk = g.chunk_size_first := rfl
  refine ⟨?_, ?_, by omega⟩
  · unfold StreamingGeometry.unconsumed
    cases h with
    | done hstop =>
      rw [if_pos (by omega), hzero, Nat.sub_zero]
    | next hle rest =>
      have hadvance : (fresh g).advance.cursor = g.shift_size_first := Nat.zero_add _
      have hshift := hg.first_le
      obtain ⟨-, hleft⟩ := rest.steady_left hg (Nat.succ_ne_zero 0) (by omega)
      rw [hadvance] at hleft
      rw [if_neg (by omega), hleft]
      rfl
  · rw [chunk_eq, hgeometry]
    unfold StreamingGeometry.chunkAt StreamingGeometry.chunkAfter
    cases h with
    | done hstop =>
      rw [if_pos (show (fresh g).step = 0 from rfl), if_pos (by omega)]
      rfl
    | next hle rest =>
      have hshift := hg.first_le
      have hadvance : (fresh g).advance.cursor = g.shift_size_first := Nat.zero_add _
      obtain ⟨hstep, -⟩ := rest.steady_left hg (Nat.succ_ne_zero 0) (by omega)
      rw [if_neg hstep, if_neg (by omega)]
      rfl

/-- The new frames of the flush, if there is one, are those past the cursor. -/
theorem flush_size (s : ChunkSchedule) (hg : 1 ≤ s.chunk) (n : Nat) :
    (∀ p ∈ (s.flush n).2, p.stop - p.start ≤ s.geometry.chunkAt p.step) ↔
      n - s.cursor ≤ s.chunk := by
  have hchunk := chunk_eq s
  unfold flush
  by_cases hle : n ≤ s.cursor
  · rw [if_pos hle]
    simp
    omega
  · rw [if_neg hle]
    simp only [plan, Option.mem_def, Option.some.injEq, forall_eq', hchunk]

end ChunkSchedule

/-! ## The steps of a stream -/

section

variable {m : SpeechModel φ σ} {geometry : StreamingGeometry} {language : String} {now : Nat → ℚ}

theorem listenTo_plans (features : List φ) (plans : List ChunkPlan) (h : Hearing φ σ) :
    (plans.foldl (listenTo m geometry language now features) h).steps.map (·.plan) =
      h.steps.map (·.plan) ++ plans := by
  induction plans generalizing h with
  | nil => simp
  | cons plan plans ih =>
    rw [List.foldl_cons, ih, listenTo, Hearing.listen, emitInterim_steps]
    simp [Hearing.runStep]

/-- The end of the stream adds the flush, on the features of the leftover
samples too. -/
theorem atEnd_plans {t : Transcriber φ σ} {h : Hearing φ σ}
    (hend : atEnd m geometry language now t = .ok h) : h.steps.map (·.plan) =
      t.hearing.steps.map (·.plan) ++ (t.schedule.flush (t.buffer.available +
        if t.pending = [] then 0 else (m.featurise t.pending).length)).2.toList := by
  have havailable : (if t.pending = [] then t.buffer
      else t.buffer.append (m.featurise t.pending)).available =
        t.buffer.available + if t.pending = [] then 0 else (m.featurise t.pending).length := by
    split
    · rfl
    · rfl
  unfold atEnd at hend
  simp only [havailable] at hend
  split at hend
  · rename_i hnone
    cases hend
    rw [emitFinal_steps, hnone]
    simp
  · rename_i plan hsome
    obtain ⟨chunk, -, hend⟩ := bind_eq_ok.mp hend
    cases hend
    rw [emitFinal_steps, hsome]
    simp [Hearing.runStep]

/-- Before the end of a stream every step has exactly its chunk. -/
theorem full_steps_of_run (hg : geometry.Advances) {a : FastConformerSttAdapter}
    {frames : List AudioFrame} {t : Transcriber φ σ}
    (hrun : frames.foldlM (onFrame m geometry a.language now a.samplesPerBlock)
      { hearing := .fresh m a, buffer := .fresh, schedule := .fresh geometry, pending := [] } = .ok t) :
    ∀ step ∈ t.hearing.steps,
      step.plan.stop - step.plan.start = geometry.chunkAt step.plan.step := by
  intro step hstep
  obtain ⟨plans, hoffers, hhearing⟩ := (synced_of_run hg hrun).steps
  have hmem : step.plan ∈ t.hearing.steps.map (·.plan) := List.mem_map_of_mem hstep
  rw [hhearing, listenTo_plans] at hmem
  exact (hoffers.full.sizes step.plan hmem).1

end

section

variable (m : SpeechModel φ σ) (a : FastConformerSttAdapter)

/-- The frames of the full blocks of some samples. -/
def blockFrames (samples : List ℚ) : Nat := (blockFeatures m a.samplesPerBlock samples).length

/-- The frames of the leftover samples. -/
def tailFrames (samples : List ℚ) : Nat :=
  if leftover a.samplesPerBlock samples = [] then 0
  else (m.featurise (leftover a.samplesPerBlock samples)).length

end

/-- Before the end of a stream every step has exactly its chunk. The step at the
end has no more exactly when what the offers left of the block frames, and the
frames of the leftover samples, fit in one chunk. -/
theorem the_last_step_is_short_iff (m : SpeechModel φ σ) (a : FastConformerSttAdapter)
    (g : StreamingGeometry) (hgeometry : a.geometry = some g) (hg : g.Advances) (now : Nat → ℚ)
    (frames : List AudioFrame) :
    (∀ t, frames.foldlM (onFrame m g a.language now a.samplesPerBlock)
        { hearing := .fresh m a, buffer := .fresh, schedule := .fresh g, pending := [] } = .ok t →
      ∀ step ∈ t.hearing.steps, step.plan.stop - step.plan.start = g.chunkAt step.plan.step) ∧
    ∀ h, transcribe m now a frames = .ok h →
      ((∀ step ∈ h.steps, step.plan.stop - step.plan.start ≤ g.chunkAt step.plan.step) ↔
        g.unconsumed (blockFrames m a (heardSamples frames)) + tailFrames m a (heardSamples frames) ≤
          g.chunkAfter (blockFrames m a (heardSamples frames))) := by
  refine ⟨fun t hrun => full_steps_of_run hg hrun, ?_⟩
  intro h ht
  unfold transcribe at ht
  rw [hgeometry] at ht
  obtain ⟨t, hrun, hend⟩ := bind_eq_ok.mp ht
  have hsync := synced_of_run hg hrun
  obtain ⟨plans, hoffers, -⟩ := hsync.steps
  obtain ⟨hleft, hchunk, hcursor⟩ := hoffers.left hg
  have htotal : t.buffer.available = blockFrames m a (heardSamples frames) := hsync.holds.total
  have htail : (if t.pending = [] then 0 else (m.featurise t.pending).length) =
      tailFrames m a (heardSamples frames) := by
    rw [hsync.pending]
    rfl
  have hplans := atEnd_plans hend
  rw [htail, htotal] at hplans
  have hadvances : t.schedule.geometry.Advances := hsync.kept ▸ hg
  have hflush := t.schedule.flush_size (ChunkSchedule.chunk_pos hadvances).1
    (blockFrames m a (heardSamples frames) + tailFrames m a (heardSamples frames))
  rw [hsync.kept, hchunk] at hflush
  -- the steps before the flush are full, so only the flush counts
  have honly : (∀ p ∈ h.steps.map (·.plan), p.stop - p.start ≤ g.chunkAt p.step) ↔
      ∀ p ∈ (t.schedule.flush (blockFrames m a (heardSamples frames) +
        tailFrames m a (heardSamples frames))).2, p.stop - p.start ≤ g.chunkAt p.step := by
    rw [hplans]
    constructor
    · intro hall p hp
      exact hall p (List.mem_append_right _ (Option.mem_toList.mpr hp))
    · intro hall p hp
      rcases List.mem_append.mp hp with hp | hp
      · obtain ⟨step, hstep, rfl⟩ := List.mem_map.mp hp
        exact (full_steps_of_run hg hrun step hstep).le
      · exact hall p (Option.mem_toList.mp hp)
  rw [List.forall_mem_map] at honly
  have hblocks : (blockFeatures m a.samplesPerBlock (heardSamples frames)).length =
      blockFrames m a (heardSamples frames) := rfl
  rw [hblocks] at hleft hcursor hflush
  rw [honly, hflush, ← hleft]
  omega

/-! ## Seven samples -/

/-- A model with one feature frame for each sample. It hears nothing. -/
def sampleModel : SpeechModel ℚ Unit where
  featurise block := block
  zero := 0
  initial := ()
  streamStep _ _ _ _ := ((), .nothing)

/-- Steps of three frames each. -/
def threes : StreamingGeometry := ⟨3, 3, 3, 3, 0, 0, 0, 8⟩

theorem threes_advances : threes.Advances := ⟨by decide, by decide, by decide, by decide⟩

/-- Seven samples. -/
def sevenSamples : AudioFrame where
  pcm := [0, 1, 0, 2, 0, 3, 0, 4, 0, 5, 0, 6, 0, 7]
  sample_rate := SAMPLE_RATE_16K
  sample_rate_pos := by decide
  t_audio := 0
  t_wall := 0

/-- In blocks of three samples, the last step has one frame. -/
theorem the_last_step_is_short_in_blocks_of_three :
    ∃ h, transcribe sampleModel (fun n => n)
        { geometry := some threes, preprocess_block_s := 3 / 16000 } [sevenSamples] = .ok h ∧
      ∀ step ∈ h.steps, step.plan.stop - step.plan.start ≤ threes.chunkAt step.plan.step := by
  have hsome : (transcribe sampleModel (fun n => n)
      { geometry := some threes, preprocess_block_s := 3 / 16000 } [sevenSamples]).toOption.isSome := by
    decide +kernel
  obtain ⟨h, hh⟩ := Option.isSome_iff_exists.mp hsome
  refine ⟨h, toOption_eq_some.mp hh, ?_⟩
  apply ((the_last_step_is_short_iff sampleModel
    { geometry := some threes, preprocess_block_s := 3 / 16000 } threes rfl threes_advances
    (fun n => n) [sevenSamples]).2 h (toOption_eq_some.mp hh)).mpr
  decide +kernel

/-- In blocks of four samples, the flush is given the frame that the first step
left and the three of the leftover samples. Its chunk is three. -/
theorem a_last_step_of_four_frames :
    ∃ h, transcribe sampleModel (fun n => n)
        { geometry := some threes, preprocess_block_s := 4 / 16000 } [sevenSamples] = .ok h ∧
      ∃ step ∈ h.steps, step.plan.start = 3 ∧ step.plan.stop = 7 ∧
        threes.chunkAt step.plan.step = 3 := by
  have hsteps : (transcribe sampleModel (fun n => n)
      { geometry := some threes, preprocess_block_s := 4 / 16000 } [sevenSamples]).toOption.map
        (fun h => h.steps.map fun step => (step.plan.start, step.plan.stop, step.plan.step)) =
      some [(0, 3, 0), (3, 7, 1)] := by
    decide +kernel
  obtain ⟨h, hh, hplans⟩ := Option.map_eq_some_iff.mp hsteps
  refine ⟨h, toOption_eq_some.mp hh, ?_⟩
  have hmem : (3, 7, 1) ∈ h.steps.map fun step => (step.plan.start, step.plan.stop, step.plan.step) := by
    rw [hplans]
    simp
  obtain ⟨step, hstep, heq⟩ := List.mem_map.mp hmem
  obtain ⟨hstart, hrest⟩ := Prod.mk.inj heq
  obtain ⟨hstop, hnumber⟩ := Prod.mk.inj hrest
  exact ⟨step, hstep, hstart, hstop, by rw [hnumber]; rfl⟩

end lad_translate.stt_fastconformer
