-- Rounding to the nearest integer, a half to the even one.
import Mathlib

namespace rounding

/-- The nearest integer, and of two the even one. -/
def roundHalfEven (q : ℚ) : Int :=
  if q - ⌊q⌋ < 1 / 2 then ⌊q⌋
  else if 1 / 2 < q - ⌊q⌋ then ⌊q⌋ + 1
  else if ⌊q⌋ % 2 = 0 then ⌊q⌋
  else ⌊q⌋ + 1

theorem floor_le_roundHalfEven (q : ℚ) : ⌊q⌋ ≤ roundHalfEven q := by
  unfold roundHalfEven
  split_ifs <;> omega

theorem roundHalfEven_le_floor_add_one (q : ℚ) : roundHalfEven q ≤ ⌊q⌋ + 1 := by
  unfold roundHalfEven
  split_ifs <;> omega

/-- The rounded number is at most a half away. -/
theorem abs_roundHalfEven_sub_le (q : ℚ) : |(roundHalfEven q : ℚ) - q| ≤ 1 / 2 := by
  have hlow := Int.floor_le q
  have hhigh := Int.lt_floor_add_one q
  rw [abs_le]
  unfold roundHalfEven
  split_ifs <;> push_cast <;> constructor <;> linarith

theorem roundHalfEven_mono {p q : ℚ} (h : p ≤ q) : roundHalfEven p ≤ roundHalfEven q := by
  rcases (Int.floor_le_floor h).eq_or_lt with hsame | hlt
  · -- between the same two integers, a larger fraction rounds down only with the smaller one
    unfold roundHalfEven
    rw [hsame]
    split_ifs <;> first | omega | linarith
  · calc roundHalfEven p ≤ ⌊p⌋ + 1 := roundHalfEven_le_floor_add_one p
      _ ≤ ⌊q⌋ := hlt
      _ ≤ roundHalfEven q := floor_le_roundHalfEven q

@[simp] theorem roundHalfEven_intCast (n : Int) : roundHalfEven (n : ℚ) = n := by
  unfold roundHalfEven
  rw [Int.floor_intCast, sub_self, if_pos (by norm_num)]

/-- `round(q, 3)`. -/
def roundThree (q : ℚ) : ℚ := roundHalfEven (q * 1000) / 1000

theorem roundThree_mono {p q : ℚ} (h : p ≤ q) : roundThree p ≤ roundThree q := by
  have hround : roundHalfEven (p * 1000) ≤ roundHalfEven (q * 1000) :=
    roundHalfEven_mono (mul_le_mul_of_nonneg_right h (by norm_num))
  exact div_le_div_of_nonneg_right (Int.cast_le.mpr hround) (by norm_num)

theorem abs_roundThree_sub_le (q : ℚ) : |roundThree q - q| ≤ 1 / 2000 := by
  have herror := abs_roundHalfEven_sub_le (q * 1000)
  rw [abs_le] at herror ⊢
  unfold roundThree
  constructor <;> linarith

@[simp] theorem roundThree_one : roundThree 1 = 1 := by
  have hround : roundHalfEven ((1000 : Int) : ℚ) = 1000 := roundHalfEven_intCast 1000
  unfold roundThree
  norm_num at hround ⊢
  rw [hround]
  norm_num

end rounding
