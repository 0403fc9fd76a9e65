-- Linear interpolation of a sequence between its integer places. It rises
-- with the sequence: inside an interval as the line does, and from one interval
-- to a later one through the places between them.
import Mathlib

namespace interpolation

variable {K : Type*} [Field K] [LinearOrder K] [IsStrictOrderedRing K]

section

variable [FloorSemiring K]

/-- The value at `x`, on the line through the two places around it. -/
def interpolate (a : ℕ → K) (x : K) : K :=
  a ⌊x⌋₊ + (a (⌊x⌋₊ + 1) - a ⌊x⌋₊) * (x - ⌊x⌋₊)

variable {a : ℕ → K} {x : K}

@[simp] theorem interpolate_natCast (a : ℕ → K) (i : ℕ) : interpolate a i = a i := by
  simp [interpolate]

omit [FloorSemiring K] in
theorem rise_nonneg (ha : Monotone a) (i : ℕ) : 0 ≤ a (i + 1) - a i :=
  sub_nonneg.mpr (ha (Nat.le_succ i))

/-- From a place on, the value is no less than there. -/
theorem floor_le_interpolate (ha : Monotone a) (hx : 0 ≤ x) : a ⌊x⌋₊ ≤ interpolate a x := by
  have hpart : 0 ≤ x - ⌊x⌋₊ := sub_nonneg.mpr (Nat.floor_le hx)
  exact le_add_of_nonneg_right (mul_nonneg (rise_nonneg ha _) hpart)

/-- Up to the next place, it is no more than there. -/
theorem interpolate_le_next (ha : Monotone a) (x : K) : interpolate a x ≤ a (⌊x⌋₊ + 1) := by
  have hpart : x - ⌊x⌋₊ ≤ 1 := by
    rw [sub_le_iff_le_add']
    exact (Nat.lt_floor_add_one x).le
  have hrise := mul_le_of_le_one_right (rise_nonneg ha ⌊x⌋₊) hpart
  calc
    interpolate a x ≤ a ⌊x⌋₊ + (a (⌊x⌋₊ + 1) - a ⌊x⌋₊) := by
      unfold interpolate
      gcongr
    _ = a (⌊x⌋₊ + 1) := add_sub_cancel _ _

theorem interpolate_mono (ha : Monotone a) : Monotone (interpolate a) := by
  intro x y hxy
  rcases (Nat.floor_mono hxy).eq_or_lt with hsame | hlt
  · -- one interval: the line rises
    unfold interpolate
    rw [hsame]
    gcongr
    exact rise_nonneg ha _
  · -- a later interval: past the end of the first one
    have hy : 0 ≤ y := (Nat.pos_of_floor_pos (Nat.zero_lt_of_lt hlt)).le
    calc
      interpolate a x ≤ a (⌊x⌋₊ + 1) := interpolate_le_next ha x
      _ ≤ a ⌊y⌋₊ := ha hlt
      _ ≤ interpolate a y := floor_le_interpolate ha hy

end

/-- The entries of a list as a sequence, the last of them for good. -/
def clamped (l : List K) (i : ℕ) : K := l.getD (min i (l.length - 1)) 0

omit [LinearOrder K] [IsStrictOrderedRing K] in
theorem clamped_eq {l : List K} {i : ℕ} (hi : i < l.length) : clamped l i = l[i] := by
  rw [clamped, min_eq_left (by omega), List.getD_eq_getElem l 0 hi]

omit [IsStrictOrderedRing K] in
theorem clamped_mono {l : List K} (hs : l.SortedLE) : Monotone (clamped l) := by
  intro i j hij
  rcases l.length.eq_zero_or_pos with hnil | hpos
  · rw [List.length_eq_zero_iff.mp hnil]
    exact le_rfl
  · unfold clamped
    rw [List.getD_eq_getElem l 0 (by omega), List.getD_eq_getElem l 0 (by omega)]
    apply hs.getElem_le_getElem_of_le
    omega

end interpolation
