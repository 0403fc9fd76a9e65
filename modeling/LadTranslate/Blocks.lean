-- Cutting a list into blocks of `n`. The blocks of a list that grows are the
-- blocks of its start, followed by the blocks of what they left and the rest,
-- so a stream may be cut as it comes. With what they leave as a last piece, they
-- cover the list.
import Mathlib

namespace blocks

variable {α : Type*}

/-- The full blocks of a list, in order. -/
def fullBlocks (n : Nat) (l : List α) : List (List α) :=
  (List.range (l.length / n)).map fun i => (l.drop (i * n)).take n

/-- What the full blocks leave. -/
def leftover (n : Nat) (l : List α) : List α := l.drop (l.length / n * n)

theorem fullBlocks_of_lt {n : Nat} {l : List α} (h : l.length < n) : fullBlocks n l = [] := by
  rw [fullBlocks, Nat.div_eq_of_lt h]
  rfl

theorem leftover_of_lt {n : Nat} {l : List α} (h : l.length < n) : leftover n l = l := by
  rw [leftover, Nat.div_eq_of_lt h, Nat.zero_mul, List.drop_zero]

theorem length_div_of_le {n : Nat} {l : List α} (hn : 0 < n) (h : n ≤ l.length) :
    l.length / n = (l.drop n).length / n + 1 := by
  rw [List.length_drop, Nat.div_eq_sub_div hn h]

/-- A long list starts with a full block. -/
theorem fullBlocks_of_le {n : Nat} {l : List α} (hn : 0 < n) (h : n ≤ l.length) :
    fullBlocks n l = l.take n :: fullBlocks n (l.drop n) := by
  rw [fullBlocks, length_div_of_le hn h, List.range_succ_eq_map, List.map_cons, List.map_map,
    fullBlocks]
  congr 1
  · simp
  · apply List.map_congr_left
    intro i _
    simp only [Function.comp_apply, List.drop_drop, Nat.succ_mul]
    rw [Nat.add_comm]

theorem leftover_of_le {n : Nat} {l : List α} (hn : 0 < n) (h : n ≤ l.length) :
    leftover n l = leftover n (l.drop n) := by
  rw [leftover, length_div_of_le hn h, leftover, List.drop_drop, Nat.succ_mul, Nat.add_comm]

/-- The blocks of a list that grew. -/
theorem fullBlocks_append {n : Nat} (hn : 0 < n) (l x : List α) :
    fullBlocks n (l ++ x) = fullBlocks n l ++ fullBlocks n (leftover n l ++ x) := by
  induction hlen : l.length using Nat.strong_induction_on generalizing l with
  | _ k ih =>
    rcases Nat.lt_or_ge l.length n with h | h
    · rw [fullBlocks_of_lt h, leftover_of_lt h, List.nil_append]
    · have hshort : (l.drop n).length < k := by
        rw [List.length_drop]
        omega
      have hlong : n ≤ (l ++ x).length := by
        rw [List.length_append]
        omega
      rw [fullBlocks_of_le hn hlong, List.take_append_of_le_length h,
        List.drop_append_of_le_length h, ih _ hshort (l.drop n) rfl, ← leftover_of_le hn h,
        fullBlocks_of_le hn h, List.cons_append]

theorem leftover_append {n : Nat} (hn : 0 < n) (l x : List α) :
    leftover n (l ++ x) = leftover n (leftover n l ++ x) := by
  induction hlen : l.length using Nat.strong_induction_on generalizing l with
  | _ k ih =>
    rcases Nat.lt_or_ge l.length n with h | h
    · rw [leftover_of_lt h]
    · have hshort : (l.drop n).length < k := by
        rw [List.length_drop]
        omega
      have hlong : n ≤ (l ++ x).length := by
        rw [List.length_append]
        omega
      rw [leftover_of_le hn hlong, List.drop_append_of_le_length h, ih _ hshort (l.drop n) rfl,
        ← leftover_of_le hn h]

/-! ## The whole list in pieces -/

theorem length_of_mem_fullBlocks {n : Nat} {l x : List α} (h : x ∈ fullBlocks n l) :
    x.length = n := by
  obtain ⟨i, hi, rfl⟩ := List.mem_map.mp h
  have hend : (i + 1) * n ≤ l.length :=
    (Nat.mul_le_mul_right n (List.mem_range.mp hi)).trans (Nat.div_mul_le_self _ _)
  rw [Nat.succ_mul] at hend
  rw [List.length_take, List.length_drop]
  omega

/-- The full blocks, and what they leave as one more. -/
def pieces (n : Nat) (l : List α) : List (List α) :=
  fullBlocks n l ++ if leftover n l = [] then [] else [leftover n l]

@[simp] theorem pieces_nil (n : Nat) : pieces n ([] : List α) = [] := by
  simp [pieces, fullBlocks, leftover]

/-- The first piece, and the pieces of the rest. -/
theorem pieces_of_ne_nil {n : Nat} {l : List α} (hn : 0 < n) (hne : l ≠ []) :
    pieces n l = l.take n :: pieces n (l.drop n) := by
  rcases Nat.lt_or_ge l.length n with h | h
  · rw [List.drop_eq_nil_of_le h.le, List.take_of_length_le h.le, pieces_nil, pieces,
      fullBlocks_of_lt h, leftover_of_lt h, if_neg hne, List.nil_append]
  · rw [pieces, fullBlocks_of_le hn h, leftover_of_le hn h, List.cons_append, pieces]

theorem pieces_flatten {n : Nat} (hn : 0 < n) (l : List α) : (pieces n l).flatten = l := by
  induction hlen : l.length using Nat.strong_induction_on generalizing l with
  | _ k ih =>
    by_cases hne : l = []
    · simp [hne]
    · have hpos := List.length_pos_iff.mpr hne
      have hshort : (l.drop n).length < k := by
        rw [List.length_drop]
        omega
      rw [pieces_of_ne_nil hn hne, List.flatten_cons, ih _ hshort _ rfl, List.take_append_drop]

theorem pieces_length {n : Nat} (hn : 0 < n) (l : List α) :
    (pieces n l).length = l.length ⌈/⌉ n := by
  induction hlen : l.length using Nat.strong_induction_on generalizing l with
  | _ k ih =>
    by_cases hne : l = []
    · rw [hne, List.length_nil] at hlen
      simp [hne, ← hlen]
    · have hpos := List.length_pos_iff.mpr hne
      have hshort : (l.drop n).length < k := by
        rw [List.length_drop]
        omega
      rw [pieces_of_ne_nil hn hne, List.length_cons, ih _ hshort _ rfl, List.length_drop,
        Nat.ceilDiv_eq_add_pred_div, Nat.ceilDiv_eq_add_pred_div, hlen]
      rcases Nat.lt_or_ge k n with h | h
      · rw [Nat.sub_eq_zero_of_le h.le, Nat.div_eq_of_lt (by omega),
          Nat.div_eq_sub_div hn (by omega), Nat.div_eq_of_lt (by omega)]
      · rw [← Nat.add_div_right _ hn]
        congr 1
        omega

/-- A piece is not empty, and not longer than a block. -/
theorem length_of_mem_pieces {n : Nat} {l x : List α} (hn : 0 < n) (h : x ∈ pieces n l) :
    1 ≤ x.length ∧ x.length ≤ n := by
  rcases List.mem_append.mp h with h | h
  · rw [length_of_mem_fullBlocks h]
    exact ⟨hn, le_rfl⟩
  · split at h
    · cases h
    · rename_i hne
      rw [List.mem_singleton.mp h]
      refine ⟨List.length_pos_iff.mpr hne, ?_⟩
      rw [leftover, List.length_drop, ← Nat.mod_eq_sub_div_mul]
      exact (Nat.mod_lt _ hn).le

/-- Only the last piece can be short. -/
theorem length_of_mem_dropLast {n : Nat} {l x : List α} (h : x ∈ (pieces n l).dropLast) :
    x.length = n := by
  unfold pieces at h
  split at h
  · rw [List.append_nil] at h
    exact length_of_mem_fullBlocks (List.mem_of_mem_dropLast h)
  · rw [List.dropLast_concat] at h
    exact length_of_mem_fullBlocks h

end blocks
