-- Tables with rows and columns, read and written by their indices. An index
-- outside the table gives `none`. Loops over the indices keep what each turn
-- adds.
import Mathlib

namespace grids

variable {α : Type*}

abbrev Grid (α : Type*) := List (List α)

namespace Grid

/-- `[[v] * columns for _ in range(rows)]`. -/
def filled (rows columns : Nat) (v : α) : Grid α := List.replicate rows (List.replicate columns v)

/-- `t[i][j]`. -/
def get? (t : Grid α) (i j : Nat) : Option α := t[i]?.bind (·[j]?)

/-- `t[i][j] = v`. -/
def set? (t : Grid α) (i j : Nat) (v : α) : Option (Grid α) :=
  if (t.get? i j).isSome then some (t.modify i fun row => row.set j v) else none

theorem get?_filled {rows columns i j : Nat} (v : α) (hi : i < rows) (hj : j < columns) :
    (filled rows columns v).get? i j = some v := by
  simp [filled, get?, hi, hj]

/-- A place in the table can be written, and no other place changes. -/
theorem exists_set? {t : Grid α} {i j : Nat} {w : α} (h : t.get? i j = some w) (v : α) :
    ∃ t', t.set? i j v = some t' ∧ t'.get? i j = some v ∧
      ∀ i' j', (i' ≠ i ∨ j' ≠ j) → t'.get? i' j' = t.get? i' j' := by
  obtain ⟨row, hrow, hcell⟩ := Option.bind_eq_some_iff.mp h
  obtain ⟨hj, -⟩ := List.getElem?_eq_some_iff.mp hcell
  refine ⟨t.modify i fun row => row.set j v, ?_, ?_, ?_⟩
  · rw [set?, if_pos (by rw [h]; rfl)]
  · simp [get?, hrow, hj]
  · intro i' j' hne
    unfold get?
    rw [List.getElem?_modify]
    by_cases hi : i = i'
    · subst hi
      have hj' : j ≠ j' := fun heq => hne.elim (· rfl) (· heq.symm)
      simp [hrow, List.getElem?_set_ne hj']
    · simp [hi]

end Grid

/-- A loop over `range(1, n + 1)` ends with what each of its turns adds. -/
theorem foldlM_range' {σ : Type*} {f : σ → Nat → Option σ} {n : Nat} (P : Nat → σ → Prop)
    (hstep : ∀ k s, k < n → P k s → ∃ s', f s (k + 1) = some s' ∧ P (k + 1) s') {s : σ}
    (h : P 0 s) : ∃ s', (List.range' 1 n).foldlM f s = some s' ∧ P n s' := by
  induction n with
  | zero => exact ⟨s, rfl, h⟩
  | succ n ih =>
    obtain ⟨t, ht, hP⟩ := ih fun k s hk => hstep k s (by omega)
    obtain ⟨s', hs', hP'⟩ := hstep n t (Nat.lt_succ_self n) hP
    refine ⟨s', ?_, hP'⟩
    rw [List.range'_1_concat, List.foldlM_append, ht, Nat.add_comm 1 n]
    show ([n + 1].foldlM f t) = some s'
    rw [List.foldlM_cons, hs']
    rfl

end grids
