-- Which frames the steps of a schedule cover, over any offers and the flush.
-- A step starts where the shift of the one before left the cursor, and its
-- chunk is no shorter than its shift, so no frame is passed over.
import LadTranslate.FrameSchedule

namespace lad_translate.stt_fastconformer

/-- The chunk size of a step. -/
def StreamingGeometry.chunkAt (g : StreamingGeometry) (step : Nat) : Nat :=
  if step = 0 then g.chunk_size_first else g.chunk_size

/-- The pre-encode cache size of a step. -/
def StreamingGeometry.cacheAt (g : StreamingGeometry) (step : Nat) : Nat :=
  if step = 0 then g.pre_encode_cache_first else g.pre_encode_cache

/-- A frame is among the new frames of a step. -/
def ChunkPlan.covers (i : Nat) (p : ChunkPlan) : Bool := decide (p.start ≤ i) && decide (i < p.stop)

theorem ChunkPlan.covers_iff {p : ChunkPlan} {i : Nat} :
    p.covers i = true ↔ p.start ≤ i ∧ i < p.stop := by
  simp [covers]

namespace ChunkSchedule

variable {s t u : ChunkSchedule} {plans more : List ChunkPlan}

theorem chunk_eq (s : ChunkSchedule) : s.chunk = s.geometry.chunkAt s.step := by
  unfold chunk sizes StreamingGeometry.chunkAt
  split <;> rfl

theorem cache_eq (s : ChunkSchedule) : s.cache = s.geometry.cacheAt s.step := by
  unfold cache sizes StreamingGeometry.cacheAt
  split <;> rfl

theorem shift_le_chunk (h : s.geometry.Advances) : s.shift ≤ s.chunk := by
  unfold shift chunk sizes
  simp only
  split
  · exact h.first_le
  · exact h.steady_le

theorem plan_covers {stop i : Nat} :
    (s.plan stop).covers i = true ↔ s.cursor ≤ i ∧ i < stop := ChunkPlan.covers_iff

/-! ## Full steps in a row -/

/-- Full steps, one after another. -/
inductive Steps : ChunkSchedule → List ChunkPlan → ChunkSchedule → Prop
  | done (s : ChunkSchedule) : Steps s [] s
  | next {s t : ChunkSchedule} {plans : List ChunkPlan} (rest : Steps s.advance plans t) :
      Steps s (s.plan (s.cursor + s.chunk) :: plans) t

theorem Offers.full {available : Nat} (h : Offers available s plans t) : Steps s plans t := by
  induction h with
  | done _ => exact .done _
  | next _ _ ih => exact .next ih

theorem Steps.trans (h : Steps s plans t) (h' : Steps t more u) : Steps s (plans ++ more) u := by
  induction h with
  | done s => exact h'
  | next _ ih => exact .next (ih h')

/-- The steps are numbered from the schedule's step on. -/
theorem Steps.numbers (h : Steps s plans t) :
    plans.map (·.step) = List.range' s.step plans.length ∧ t.step = s.step + plans.length := by
  induction h with
  | done s => exact ⟨rfl, rfl⟩
  | @next s t plans _ ih =>
    obtain ⟨hsteps, hlast⟩ := ih
    refine ⟨?_, ?_⟩
    · rw [List.map_cons, hsteps, List.length_cons, List.range'_succ]
      rfl
    · rw [hlast, List.length_cons]
      simp only [advance]
      omega

/-- A full step has the chunk of its number, and the cache with zeros for the
history that there is not. -/
theorem Steps.sizes (h : Steps s plans t) : ∀ p ∈ plans,
    p.stop - p.start = s.geometry.chunkAt p.step ∧
      p.width = s.geometry.cacheAt p.step + s.geometry.chunkAt p.step := by
  induction h with
  | done s => simp
  | @next s t plans _ ih =>
    intro p hp
    rcases List.mem_cons.mp hp with rfl | hp
    · have hchunk := chunk_eq s
      have hcache := cache_eq s
      simp only [ChunkPlan.width, ChunkPlan.cacheFrames, plan]
      omega
    · exact ih p hp

theorem Steps.cursor_le (h : Steps s plans t) : s.cursor ≤ t.cursor := by
  induction h with
  | done s => exact le_rfl
  | @next s t plans _ ih =>
    simp only [advance] at ih
    omega

/-- Every frame that the cursor went past is new in some step. -/
theorem Steps.covered (hg : s.geometry.Advances) (h : Steps s plans t) {i : Nat}
    (hi : s.cursor ≤ i) (hlt : i < t.cursor) : ∃ p ∈ plans, p.covers i = true := by
  induction h with
  | done s => omega
  | @next s t plans _ ih =>
    by_cases hfirst : i < s.cursor + s.chunk
    · exact ⟨_, List.mem_cons_self, ChunkPlan.covers_iff.mpr ⟨hi, hfirst⟩⟩
    · have hshift := shift_le_chunk hg
      obtain ⟨p, hp, hcovers⟩ := ih hg (by simp only [advance]; omega) hlt
      exact ⟨p, List.mem_cons_of_mem _ hp, hcovers⟩

/-- With shifts of a whole chunk, the steps cover every such frame once, and no
other frame. -/
theorem Steps.covered_once (hfirst : s.geometry.shift_size_first = s.geometry.chunk_size_first)
    (hsteady : s.geometry.shift_size = s.geometry.chunk_size) (h : Steps s plans t) (i : Nat) :
    plans.countP (·.covers i) = if s.cursor ≤ i ∧ i < t.cursor then 1 else 0 := by
  induction h with
  | done s =>
    rw [if_neg (by omega)]
    rfl
  | @next s t plans rest ih =>
    have hshift : s.shift = s.chunk := by
      unfold shift chunk ChunkSchedule.sizes
      simp only
      split
      · exact hfirst
      · exact hsteady
    have hrest := rest.cursor_le
    have hadvance : s.advance.cursor = s.cursor + s.chunk := by
      rw [← hshift]
      rfl
    rw [List.countP_cons, ih hfirst hsteady]
    rw [hadvance] at hrest ⊢
    by_cases hnew : s.cursor ≤ i ∧ i < s.cursor + s.chunk
    · rw [if_pos (plan_covers.mpr hnew), if_neg (by omega), if_pos (by omega)]
    · rw [if_neg (fun hc => hnew (plan_covers.mp hc))]
      by_cases hlater : s.cursor + s.chunk ≤ i ∧ i < t.cursor
      · rw [if_pos hlater, if_pos (by omega)]
      · rw [if_neg hlater, if_neg (by omega)]

/-! ## Any offers -/

/-- The offers of some counts, one after another: the schedule, and what each
offer returned. -/
def offerAll (s : ChunkSchedule) : List Nat → Option (ChunkSchedule × List (List ChunkPlan))
  | [] => some (s, [])
  | count :: counts => do
    let (s, batch) ← s.offer count
    let (s, batches) ← s.offerAll counts
    return (s, batch :: batches)

/-- An offer moves the cursor no further than the frames that have arrived. -/
theorem Offers.cursor_le {available : Nat} (hg : s.geometry.Advances)
    (h : Offers available s plans t) : t.cursor ≤ max s.cursor available := by
  induction h with
  | done _ => exact le_max_left _ _
  | @next s t plans hle _ ih =>
    have hshift := shift_le_chunk hg
    have hrest := ih hg
    simp only [advance] at hrest
    omega

/-- Offers end. They are full steps, each within its count. -/
theorem offerAll_steps (hg : s.geometry.Advances) (counts : List Nat) :
    ∃ t batches, s.offerAll counts = some (t, batches) ∧ Steps s batches.flatten t ∧
      List.Forall₂ (fun count batch => ∀ p ∈ batch, p.stop ≤ count) counts batches ∧
      ∀ n, s.cursor ≤ n → (∀ count ∈ counts, count ≤ n) → t.cursor ≤ n := by
  induction counts generalizing s with
  | nil => exact ⟨s, [], rfl, .done s, .nil, fun n hn _ => hn⟩
  | cons count counts ih =>
    obtain ⟨u, batch, hoffer⟩ := offer_ends hg count
    have hoffers := offer_offers hoffer
    obtain ⟨t, batches, hall, hsteps, hwithin, hlast⟩ := ih (s := u) (hoffers.geometry ▸ hg)
    refine ⟨t, batch :: batches, ?_, ?_, ?_, ?_⟩
    · simp only [offerAll, hoffer, hall, Option.bind_eq_bind, Option.bind_some]
      rfl
    · rw [List.flatten_cons]
      exact hoffers.full.trans hsteps
    · exact .cons hoffers.stop_le hwithin
    · intro n hn hcounts
      have hmove := hoffers.cursor_le hg
      have hcount := hcounts count List.mem_cons_self
      exact hlast n (by omega) fun c hc => hcounts c (List.mem_cons_of_mem _ hc)

/-- The flush covers what the cursor has not passed, once. -/
theorem flush_covers {n : Nat} (hn : s.cursor ≤ n) (i : Nat) :
    (s.flush n).2.toList.countP (·.covers i) = if s.cursor ≤ i ∧ i < n then 1 else 0 := by
  unfold flush
  by_cases hle : n ≤ s.cursor
  · rw [if_pos hle, if_neg (by omega)]
    rfl
  · rw [if_neg hle]
    rw [Option.toList_some, List.countP_singleton]
    by_cases hi : s.cursor ≤ i ∧ i < n
    · rw [if_pos (plan_covers.mpr hi), if_pos hi]
    · rw [if_neg (fun hc => hi (plan_covers.mp hc)), if_neg hi]

theorem flush_numbers (s : ChunkSchedule) (n : Nat) : ∀ p ∈ (s.flush n).2, p.step = s.step := by
  unfold flush
  split
  · simp
  · rintro p ⟨⟩
    rfl

/-- A second flush has nothing left. -/
theorem flush_flush (s : ChunkSchedule) (n : Nat) : ((s.flush n).1.flush n).2 = none := by
  unfold flush
  by_cases hle : n ≤ s.cursor
  · rw [if_pos hle, if_pos hle]
  · rw [if_neg hle]
    simp

end ChunkSchedule

/-- Over any offers and a flush at the end, every frame is new in some step, and
in one step only when the shifts are whole chunks. The steps are numbered 0, 1,
2, ... None ends beyond its count, and an offered one has the full width. -/
theorem every_frame_is_stepped (g : StreamingGeometry) (hg : g.Advances) (counts : List Nat)
    (n : Nat) (hn : ∀ count ∈ counts, count ≤ n) :
    ∃ s batches, (ChunkSchedule.fresh g).offerAll counts = some (s, batches) ∧
      (∀ i < n, ∃ p ∈ batches.flatten ++ (s.flush n).2.toList, p.start ≤ i ∧ i < p.stop) ∧
      (g.shift_size_first = g.chunk_size_first → g.shift_size = g.chunk_size → ∀ i < n,
        (batches.flatten ++ (s.flush n).2.toList).countP (·.covers i) = 1) ∧
      (batches.flatten ++ (s.flush n).2.toList).map (·.step) =
        List.range (batches.flatten ++ (s.flush n).2.toList).length ∧
      List.Forall₂ (fun count batch => ∀ p ∈ batch, p.stop ≤ count) counts batches ∧
      (∀ p ∈ (s.flush n).2, p.stop ≤ n) ∧
      (∀ p ∈ batches.flatten, p.width = g.cacheAt p.step + g.chunkAt p.step) ∧
      ((s.flush n).1.flush n).2 = none := by
  obtain ⟨s, batches, hall, hsteps, hwithin, hlast⟩ :=
    ChunkSchedule.offerAll_steps (s := .fresh g) hg counts
  have hcursor := hlast n (Nat.zero_le n) hn
  have hstart : (ChunkSchedule.fresh g).cursor = 0 := rfl
  refine ⟨s, batches, hall, ?_, ?_, ?_, hwithin, ?_, fun p hp => (hsteps.sizes p hp).2,
    ChunkSchedule.flush_flush s n⟩
  · intro i hi
    by_cases hpassed : i < s.cursor
    · obtain ⟨p, hp, hcovers⟩ := hsteps.covered hg (Nat.zero_le i) hpassed
      exact ⟨p, List.mem_append_left _ hp, ChunkPlan.covers_iff.mp hcovers⟩
    · -- the flush starts at the cursor
      have hflush := ChunkSchedule.flush_covers hcursor i
      rw [if_pos ⟨by omega, hi⟩] at hflush
      have hsome : 0 < (s.flush n).2.toList.countP (·.covers i) := by omega
      obtain ⟨p, hp, hcovers⟩ := List.countP_pos_iff.mp hsome
      exact ⟨p, List.mem_append_right _ hp, ChunkPlan.covers_iff.mp hcovers⟩
  · intro hfirst hsteady i hi
    rw [List.countP_append, hsteps.covered_once hfirst hsteady, ChunkSchedule.flush_covers hcursor,
      hstart]
    by_cases hpassed : i < s.cursor
    · rw [if_pos ⟨Nat.zero_le i, hpassed⟩, if_neg (by omega)]
    · rw [if_neg (by omega), if_pos ⟨by omega, hi⟩]
  · obtain ⟨hnumbers, hstep⟩ := hsteps.numbers
    have hflush := ChunkSchedule.flush_numbers s n
    have hzero : (ChunkSchedule.fresh g).step = 0 := rfl
    rw [hzero] at hnumbers hstep
    rw [Nat.zero_add] at hstep
    rw [List.map_append, hnumbers, List.length_append, ← List.range_eq_range']
    cases hplan : (s.flush n).2 with
    | none => simp
    | some p =>
      have hp := hflush p (by rw [hplan]; rfl)
      rw [Option.toList_some, List.map_singleton, List.length_singleton, List.range_succ, hp, hstep]
  · intro p hp
    exact (ChunkSchedule.flush_stop hp).le

/-- Frames in bursts, with a first step that shifts by half of its chunk. -/
theorem every_frame_is_stepped_in_bursts :
    ∃ s batches, (ChunkSchedule.fresh ⟨2, 3, 1, 3, 0, 1, 1, 8⟩).offerAll [1, 5, 5] =
        some (s, batches) ∧
      ∀ i < 9, ∃ p ∈ batches.flatten ++ (s.flush 9).2.toList, p.start ≤ i ∧ i < p.stop := by
  obtain ⟨s, batches, hall, hcovered, -⟩ := every_frame_is_stepped ⟨2, 3, 1, 3, 0, 1, 1, 8⟩
    ⟨by decide, by decide, by decide, by decide⟩ [1, 5, 5] 9 (by decide)
  exact ⟨s, batches, hall, hcovered⟩

end lad_translate.stt_fastconformer
