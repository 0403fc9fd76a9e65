-- The speed ramp of the drift controller, as a function of the depth: it grows
-- from normal speed to the ceiling of the policy, without a jump of more than
-- the rounding, and a phrase is dropped only at the ceiling.
import LadTranslate.Drift

open rounding

namespace lad_translate.drift

/-! ## The ramp -/

namespace DriftPolicy

/-- How far up its ramp a policy is at a depth. -/
def fraction (policy : DriftPolicy) (depth : ℚ) : ℚ :=
  min 1 (max 0 ((depth - policy.speedup_at_s) / (policy.skip_at_s - policy.speedup_at_s)))

/-- The speed at a depth, before it is rounded. -/
def rampAt (policy : DriftPolicy) (depth : ℚ) : ℚ :=
  1 + policy.fraction depth * (policy.max_speed - 1)

variable (policy : DriftPolicy) {depth depth' : ℚ}

theorem span_pos : 0 < policy.skip_at_s - policy.speedup_at_s := sub_pos.mpr policy.speedup_lt

theorem max_speed_sub_nonneg : 0 ≤ policy.max_speed - 1 := sub_nonneg.mpr policy.max_speed_ge

theorem fraction_nonneg : 0 ≤ policy.fraction depth := le_min zero_le_one (le_max_left _ _)

theorem fraction_le_one : policy.fraction depth ≤ 1 := min_le_left _ _

theorem fraction_mono (h : depth ≤ depth') : policy.fraction depth ≤ policy.fraction depth' := by
  unfold fraction
  apply min_le_min_left
  apply max_le_max_left
  exact div_le_div_of_nonneg_right (sub_le_sub_right h _) policy.span_pos.le

theorem fraction_eq_zero (h : depth ≤ policy.speedup_at_s) : policy.fraction depth = 0 := by
  have hle : (depth - policy.speedup_at_s) / (policy.skip_at_s - policy.speedup_at_s) ≤ 0 :=
    div_nonpos_of_nonpos_of_nonneg (sub_nonpos.mpr h) policy.span_pos.le
  rw [fraction, max_eq_left hle, min_eq_right zero_le_one]

theorem fraction_eq_one (h : policy.skip_at_s ≤ depth) : policy.fraction depth = 1 := by
  have hge : 1 ≤ (depth - policy.speedup_at_s) / (policy.skip_at_s - policy.speedup_at_s) := by
    rw [le_div_iff₀ policy.span_pos, one_mul]
    exact sub_le_sub_right h _
  rw [fraction, max_eq_right (zero_le_one.trans hge), min_eq_left hge]

/-- Two depths are as far apart on the ramp as in seconds, over its span. -/
theorem abs_fraction_sub_le : |policy.fraction depth - policy.fraction depth'| ≤
    |depth - depth'| / (policy.skip_at_s - policy.speedup_at_s) := by
  have hspan := policy.span_pos
  have hsteps : (depth - policy.speedup_at_s) / (policy.skip_at_s - policy.speedup_at_s) -
      (depth' - policy.speedup_at_s) / (policy.skip_at_s - policy.speedup_at_s) =
      (depth - depth') / (policy.skip_at_s - policy.speedup_at_s) := by
    rw [← sub_div, sub_sub_sub_cancel_right]
  unfold fraction
  generalize (depth - policy.speedup_at_s) / (policy.skip_at_s - policy.speedup_at_s) = x at *
  generalize (depth' - policy.speedup_at_s) / (policy.skip_at_s - policy.speedup_at_s) = y at *
  calc |min 1 (max 0 x) - min 1 (max 0 y)| ≤ max |(1 : ℚ) - 1| |max 0 x - max 0 y| :=
        abs_min_sub_min_le_max _ _ _ _
    _ ≤ max |(1 : ℚ) - 1| (max |(0 : ℚ) - 0| |x - y|) :=
        max_le_max_left _ (abs_max_sub_max_le_max _ _ _ _)
    _ = |x - y| := by
        simp
    _ = |depth - depth'| / (policy.skip_at_s - policy.speedup_at_s) := by
        rw [hsteps, abs_div, abs_of_pos hspan]

theorem rampAt_mono (h : depth ≤ depth') : policy.rampAt depth ≤ policy.rampAt depth' := by
  have hmul := mul_le_mul_of_nonneg_right (policy.fraction_mono h) policy.max_speed_sub_nonneg
  exact add_le_add_right hmul 1

theorem one_le_rampAt : 1 ≤ policy.rampAt depth :=
  le_add_of_nonneg_right (mul_nonneg policy.fraction_nonneg policy.max_speed_sub_nonneg)

theorem rampAt_le : policy.rampAt depth ≤ policy.max_speed := by
  have hfraction : policy.fraction depth ≤ 1 := policy.fraction_le_one
  have hmul := mul_le_mul_of_nonneg_right hfraction policy.max_speed_sub_nonneg
  unfold rampAt
  linarith

theorem abs_rampAt_sub_le : |policy.rampAt depth - policy.rampAt depth'| ≤
    (policy.max_speed - 1) / (policy.skip_at_s - policy.speedup_at_s) * |depth - depth'| := by
  have hnonneg := policy.max_speed_sub_nonneg
  have hsub : policy.rampAt depth - policy.rampAt depth' =
      (policy.fraction depth - policy.fraction depth') * (policy.max_speed - 1) := by
    unfold rampAt
    ring
  rw [hsub, abs_mul, abs_of_nonneg hnonneg]
  calc |policy.fraction depth - policy.fraction depth'| * (policy.max_speed - 1)
      ≤ |depth - depth'| / (policy.skip_at_s - policy.speedup_at_s) * (policy.max_speed - 1) :=
        mul_le_mul_of_nonneg_right policy.abs_fraction_sub_le hnonneg
    _ = _ := by ring

/-- The speed of the code is the rounded ramp. -/
theorem rampSpeed_eq (h : ¬ depth ≤ policy.speedup_at_s) :
    DriftController.rampSpeed policy depth = roundThree (policy.rampAt depth) := by
  have hpos : 0 ≤ (depth - policy.speedup_at_s) / (policy.skip_at_s - policy.speedup_at_s) :=
    div_nonneg (sub_nonneg.mpr (not_le.mp h).le) policy.span_pos.le
  unfold DriftController.rampSpeed roundThree rampAt fraction
  simp only
  rw [if_pos policy.span_pos, max_eq_right hpos]

end DriftPolicy

/-! ## The controller -/

namespace DriftController

/-- The speed that the controller asks for when it just observed a depth. -/
def speedAt (c : DriftController) (language : String) (depth : ℚ) : ℚ :=
  ((c.observe language depth).speedFor language).2

/-- Whether the controller drops a phrase when it just observed a depth. -/
def skipsAt (c : DriftController) (language : String) (depth : ℚ) : Bool :=
  (c.observe language depth).shouldSkip language

/-- What a session does to its controller. -/
inductive Event
  | observed (language : String) (queue_depth_s : ℚ)
  | spoken (language : String)
  | skipped (language : String) (seconds : ℚ)

def after (c : DriftController) (events : List Event) : DriftController :=
  events.foldl (fun c event =>
    match event with
    | .observed language queue_depth_s => c.observe language queue_depth_s
    | .spoken language => (c.speedFor language).1
    | .skipped language seconds => c.noteSkipped language seconds) c

variable {c : DriftController} {languages : List String} {policy : String → DriftPolicy}
  {language : String}

theorem Covers.after (h : c.Covers languages policy) (events : List Event) :
    (c.after events).Covers languages policy := by
  induction events generalizing c with
  | nil => exact h
  | cons event events ih =>
    cases event with
    | observed language queue_depth_s => exact ih (h.observe language queue_depth_s)
    | spoken language => exact ih (h.speedFor language)
    | skipped language seconds => exact ih (h.noteSkipped language seconds)

/-- The depth that a controller records. -/
theorem Covers.observed (h : c.Covers languages policy) (hl : language ∈ languages) (depth : ℚ) :
    ∃ d, (c.observe language depth).state language = some d ∧ d.queue_depth_s = max 0 depth := by
  obtain ⟨d, hd⟩ := Option.isSome_iff_exists.mp ((h.state language).mpr hl)
  refine ⟨{ d with queue_depth_s := max 0 depth,
                   peak_depth_s := max d.peak_depth_s (max 0 depth) }, ?_, rfl⟩
  simp [DriftController.observe, hd, DriftController.update]

theorem Covers.speedAt (h : c.Covers languages policy) (hl : language ∈ languages) (depth : ℚ) :
    c.speedAt language depth = roundThree ((policy language).rampAt (max 0 depth)) := by
  obtain ⟨d, hd, hdepth⟩ := h.observed hl depth
  have hpolicy := (h.observe language depth).policy language
  unfold DriftController.speedAt DriftController.speedFor
  simp only [hd, hpolicy, hdepth]
  by_cases hshallow : max 0 depth ≤ (policy language).speedup_at_s
  · rw [if_pos hshallow, DriftPolicy.rampAt, DriftPolicy.fraction_eq_zero _ hshallow, zero_mul,
      add_zero, roundThree_one]
  · rw [if_neg hshallow]
    exact (policy language).rampSpeed_eq hshallow

theorem Covers.skipsAt (h : c.Covers languages policy) (hl : language ∈ languages) (depth : ℚ) :
    c.skipsAt language depth = true ↔ (policy language).skip_at_s ≤ max 0 depth := by
  obtain ⟨d, hd, hdepth⟩ := h.observed hl depth
  have hpolicy := (h.observe language depth).policy language
  unfold DriftController.skipsAt shouldSkip
  simp only [hd, hpolicy, hdepth, decide_eq_true_eq]

end DriftController

open DriftController in
/-- For every session, at any two moments of it and for any two depths: the
speed grows with the depth, from 1 at `speedup_at_s` to the ceiling at
`skip_at_s`, it is continuous up to the rounding, and a phrase is dropped only
where the speed is at its ceiling. The depth that is recorded is not negative. -/
theorem the_ramp_rises_to_its_ceiling (languages : List String)
    (default_policy : Option DriftPolicy) (policies : String → Option DriftPolicy)
    (before before' : List Event) (language : String) (hl : language ∈ languages)
    (depth depth' : ℚ) :
    let session := DriftController.new languages default_policy policies
    let policy := session.policyFor language
    let speed := (session.after before).speedAt language depth
    let speed' := (session.after before').speedAt language depth'
    (depth ≤ depth' → speed ≤ speed') ∧
    (max 0 depth ≤ policy.speedup_at_s → speed = 1) ∧
    (policy.skip_at_s ≤ max 0 depth → speed = roundThree policy.max_speed) ∧
    (1 ≤ speed ∧ speed ≤ roundThree policy.max_speed) ∧
    |speed - speed'| ≤ (policy.max_speed - 1) / (policy.skip_at_s - policy.speedup_at_s) *
      |depth - depth'| + 1 / 1000 ∧
    ((session.after before).skipsAt language depth = true →
      speed = roundThree policy.max_speed) := by
  intro session policy speed speed'
  have hcovers := covers_new languages default_policy policies
  have hspeed : speed = roundThree (policy.rampAt (max 0 depth)) :=
    (hcovers.after before).speedAt hl depth
  have hspeed' : speed' = roundThree (policy.rampAt (max 0 depth')) :=
    (hcovers.after before').speedAt hl depth'
  have hceiling : policy.skip_at_s ≤ max 0 depth → speed = roundThree policy.max_speed := by
    intro hdeep
    rw [hspeed, DriftPolicy.rampAt, policy.fraction_eq_one hdeep]
    congr 1
    ring
  refine ⟨?_, ?_, hceiling, ⟨?_, ?_⟩, ?_, ?_⟩
  · intro hle
    rw [hspeed, hspeed']
    exact roundThree_mono (policy.rampAt_mono (max_le_max_left 0 hle))
  · intro hshallow
    rw [hspeed, DriftPolicy.rampAt, policy.fraction_eq_zero hshallow, zero_mul, add_zero,
      roundThree_one]
  · rw [hspeed, ← roundThree_one]
    exact roundThree_mono policy.one_le_rampAt
  · rw [hspeed]
    exact roundThree_mono policy.rampAt_le
  · have hdepths : |max 0 depth - max 0 depth'| ≤ |depth - depth'| := by
      have hmax := abs_max_sub_max_le_max 0 depth 0 depth'
      simpa using hmax
    have hslope : 0 ≤ (policy.max_speed - 1) / (policy.skip_at_s - policy.speedup_at_s) :=
      div_nonneg policy.max_speed_sub_nonneg policy.span_pos.le
    have hramp : |policy.rampAt (max 0 depth) - policy.rampAt (max 0 depth')| ≤
        (policy.max_speed - 1) / (policy.skip_at_s - policy.speedup_at_s) * |depth - depth'| :=
      policy.abs_rampAt_sub_le.trans (mul_le_mul_of_nonneg_left hdepths hslope)
    have hround := abs_roundThree_sub_le (policy.rampAt (max 0 depth))
    have hround' := abs_roundThree_sub_le (policy.rampAt (max 0 depth'))
    rw [hspeed, hspeed']
    rw [abs_le] at hramp hround hround' ⊢
    constructor <;> linarith
  · intro hskips
    exact hceiling (((hcovers.after before).skipsAt hl depth).mp hskips)

/-- Arabic has measurements of its own: its ramp is from 1 s to 6 s. -/
theorem the_ramp_rises_to_its_ceiling_in_arabic :
    (DriftController.new ["ar"] none fun _ => none).speedAt "ar" 1 = 1 ∧
    (DriftController.new ["ar"] none fun _ => none).speedAt "ar" 7 = roundThree (13 / 10) := by
  obtain ⟨-, hnormal, -⟩ := the_ramp_rises_to_its_ceiling ["ar"] none (fun _ => none) [] [] "ar"
    (by decide) 1 1
  obtain ⟨-, -, hceiling, -⟩ := the_ramp_rises_to_its_ceiling ["ar"] none (fun _ => none) [] [] "ar"
    (by decide) 7 7
  exact ⟨hnormal (by decide +kernel), hceiling (by decide +kernel)⟩

end lad_translate.drift
