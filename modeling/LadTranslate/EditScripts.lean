-- Edit scripts on lists: chains of single edits, and alignments that go through
-- both lists once. The edit distance is the length of the shortest script.
import Mathlib

namespace edit_scripts

variable {α : Type*}

/-! ## Scripts -/

/-- One element is substituted, deleted or inserted, somewhere in the list. -/
inductive Edit : List α → List α → Prop
  | substitute (x y : α) (l : List α) : Edit (x :: l) (y :: l)
  | delete (x : α) (l : List α) : Edit (x :: l) l
  | insert (y : α) (l : List α) : Edit l (y :: l)
  | cons (z : α) {l l' : List α} (h : Edit l l') : Edit (z :: l) (z :: l')

/-- So many edits, one after another. -/
inductive Script : List α → List α → Nat → Prop
  | nil (l : List α) : Script l l 0
  | snoc {l l' l'' : List α} {n : Nat} (h : Script l l' n) (hedit : Edit l' l'') :
      Script l l'' (n + 1)

variable {a b c : List α} {n : Nat}

theorem Edit.append_right (h : Edit a b) (r : List α) : Edit (a ++ r) (b ++ r) := by
  induction h with
  | substitute x y l => exact .substitute x y (l ++ r)
  | delete x l => exact .delete x (l ++ r)
  | insert y l => exact .insert y (l ++ r)
  | cons z h ih => exact .cons z ih

theorem Edit.append_left (h : Edit a b) (l : List α) : Edit (l ++ a) (l ++ b) := by
  induction l with
  | nil => exact h
  | cons z l ih => exact .cons z ih

theorem Edit.reverse (h : Edit a b) : Edit a.reverse b.reverse := by
  induction h with
  | substitute x y l =>
    rw [List.reverse_cons, List.reverse_cons]
    exact (Edit.substitute x y []).append_left l.reverse
  | delete x l =>
    have hedit := (Edit.delete x []).append_left l.reverse
    rwa [List.append_nil, ← List.reverse_cons] at hedit
  | insert y l =>
    have hedit := (Edit.insert y []).append_left l.reverse
    rwa [List.append_nil, ← List.reverse_cons] at hedit
  | cons z h ih =>
    rw [List.reverse_cons, List.reverse_cons]
    exact ih.append_right [z]

theorem Script.reverse (h : Script a b n) : Script a.reverse b.reverse n := by
  induction h with
  | nil => exact .nil _
  | snoc h hedit ih => exact .snoc ih hedit.reverse

theorem Script.cons (h : Script a b n) (z : α) : Script (z :: a) (z :: b) n := by
  induction h with
  | nil => exact .nil _
  | snoc h hedit ih => exact .snoc ih (.cons z hedit)

/-- An edit can come first. -/
theorem Script.edit_first (hedit : Edit a b) (h : Script b c n) : Script a c (n + 1) := by
  induction h with
  | nil => exact .snoc (.nil a) hedit
  | snoc h hlast ih => exact .snoc ih hlast

/-! ## Alignments -/

inductive Op
  | keep
  | substitute
  | delete
  | insert
deriving DecidableEq

/-- The operations that go through both lists, from the start to the end. -/
inductive Aligned : List Op → List α → List α → Prop
  | nil : Aligned [] [] []
  | keep {ops : List Op} {a b : List α} (x : α) (h : Aligned ops a b) :
      Aligned (.keep :: ops) (x :: a) (x :: b)
  | substitute {ops : List Op} {a b : List α} (x y : α) (h : Aligned ops a b) :
      Aligned (.substitute :: ops) (x :: a) (y :: b)
  | delete {ops : List Op} {a b : List α} (x : α) (h : Aligned ops a b) :
      Aligned (.delete :: ops) (x :: a) b
  | insert {ops : List Op} {a b : List α} (y : α) (h : Aligned ops a b) :
      Aligned (.insert :: ops) a (y :: b)

/-- How many elements are not kept. -/
def cost (ops : List Op) : Nat := ops.countP (· ≠ .keep)

@[simp] theorem cost_nil : cost [] = 0 := rfl

@[simp] theorem cost_keep (ops : List Op) : cost (.keep :: ops) = cost ops := rfl

@[simp] theorem cost_cons {op : Op} (h : op ≠ .keep) (ops : List Op) :
    cost (op :: ops) = cost ops + 1 := by
  unfold cost
  rw [List.countP_cons_of_pos (by simpa using h)]

theorem cost_eq (ops : List Op) :
    cost ops = ops.count .substitute + ops.count .delete + ops.count .insert := by
  induction ops with
  | nil => rfl
  | cons op ops ih => cases op <;> simp [ih] <;> omega

variable {ops ops' : List Op}

/-- Each list is its kept and substituted elements, and its own others. -/
theorem Aligned.length (h : Aligned ops a b) :
    a.length + ops.count .insert = b.length + ops.count .delete := by
  induction h with
  | nil => rfl
  | keep x h ih => simp; omega
  | substitute x y h ih => simp; omega
  | delete x h ih => simp; omega
  | insert y h ih => simp; omega

theorem Aligned.append {a' b' : List α} (h : Aligned ops a b) (h' : Aligned ops' a' b') :
    Aligned (ops ++ ops') (a ++ a') (b ++ b') := by
  induction h with
  | nil => exact h'
  | keep x h ih => exact .keep x ih
  | substitute x y h ih => exact .substitute x y ih
  | delete x h ih => exact .delete x ih
  | insert y h ih => exact .insert y ih

theorem Aligned.reverse (h : Aligned ops a b) : Aligned ops.reverse a.reverse b.reverse := by
  induction h with
  | nil => exact .nil
  | keep x h ih => simpa using ih.append (.keep x .nil)
  | substitute x y h ih => simpa using ih.append (.substitute x y .nil)
  | delete x h ih => simpa using ih.append (.delete x .nil)
  | insert y h ih => simpa using ih.append (.insert y .nil)

/-- An alignment is a script with as many edits as it does not keep elements. -/
theorem Aligned.script (h : Aligned ops a b) : Script a b (cost ops) := by
  induction h with
  | nil => exact .nil []
  | keep x h ih => exact ih.cons x
  | @substitute ops a b x y h ih =>
    rw [cost_cons (by decide)]
    exact .edit_first (.substitute x y a) (ih.cons y)
  | @delete ops a b x h ih =>
    rw [cost_cons (by decide)]
    exact .edit_first (.delete x a) ih
  | @insert ops a b y h ih =>
    rw [cost_cons (by decide)]
    exact .edit_first (.insert y a) (ih.cons y)

/-- One more edit of the target costs at most one more. -/
theorem Aligned.edit (h : Aligned ops a b) (hedit : Edit b c) :
    ∃ ops', Aligned ops' a c ∧ cost ops' ≤ cost ops + 1 := by
  induction h generalizing c with
  | nil =>
    cases hedit with
    | insert y l => exact ⟨_, .insert y .nil, by simp⟩
  | keep x h ih =>
    cases hedit with
    | substitute x y l => exact ⟨_, .substitute x y h, by simp⟩
    | delete x l => exact ⟨_, .delete x h, by simp⟩
    | insert y l => exact ⟨_, .insert y (.keep x h), by simp⟩
    | cons z hrest =>
      obtain ⟨ops', h', hle⟩ := ih hrest
      exact ⟨_, .keep x h', by simpa using hle⟩
  | substitute x y h ih =>
    cases hedit with
    | substitute y z l => exact ⟨_, .substitute x z h, by simp⟩
    | delete y l => exact ⟨_, .delete x h, by simp⟩
    | insert z l => exact ⟨_, .insert z (.substitute x y h), by simp⟩
    | cons z hrest =>
      obtain ⟨ops', h', hle⟩ := ih hrest
      exact ⟨_, .substitute x y h', by simpa using hle⟩
  | delete x h ih =>
    obtain ⟨ops', h', hle⟩ := ih hedit
    exact ⟨_, .delete x h', by simpa using hle⟩
  | insert y h ih =>
    cases hedit with
    | substitute y z l => exact ⟨_, .insert z h, by simp⟩
    | delete y l => exact ⟨_, h, by simp; omega⟩
    | insert z l => exact ⟨_, .insert z (.insert y h), by simp⟩
    | cons z hrest =>
      obtain ⟨ops', h', hle⟩ := ih hrest
      exact ⟨_, .insert y h', by simpa using hle⟩

/-- A source without its first element costs at most one more. -/
theorem Aligned.tail {x : α} (h : Aligned ops (x :: a) b) :
    ∃ ops', Aligned ops' a b ∧ cost ops' ≤ cost ops + 1 := by
  generalize hx : x :: a = l at h
  induction h with
  | nil => cases hx
  | keep z h ih =>
    cases hx
    exact ⟨_, .insert x h, by simp⟩
  | substitute z y h ih =>
    cases hx
    exact ⟨_, .insert y h, by simp⟩
  | delete z h ih =>
    cases hx
    exact ⟨_, h, by simp; omega⟩
  | insert y h ih =>
    obtain ⟨ops', h', hle⟩ := ih hx
    exact ⟨_, .insert y h', by simpa using hle⟩

theorem exists_aligned_self (l : List α) : ∃ ops, Aligned ops l l ∧ cost ops = 0 := by
  induction l with
  | nil => exact ⟨_, .nil, rfl⟩
  | cons x l ih =>
    obtain ⟨ops, h, hcost⟩ := ih
    exact ⟨_, .keep x h, hcost⟩

/-- No script is shorter than every alignment. -/
theorem Script.aligned (h : Script a b n) : ∃ ops, Aligned ops a b ∧ cost ops ≤ n := by
  induction h with
  | nil =>
    obtain ⟨ops, h, hcost⟩ := exists_aligned_self a
    exact ⟨ops, h, hcost.le⟩
  | snoc h hedit ih =>
    obtain ⟨ops, h, hle⟩ := ih
    obtain ⟨ops', h', hle'⟩ := h.edit hedit
    exact ⟨ops', h', by omega⟩

/-! ## The distance -/

variable [DecidableEq α]

/-- The recursion of Levenshtein. Equal first elements are kept. -/
def distance : List α → List α → Nat
  | [], b => b.length
  | x :: a, [] => (x :: a).length
  | x :: a, y :: b =>
    if x = y then distance a b
    else min (min (distance a b + 1) (distance a (y :: b) + 1)) (distance (x :: a) b + 1)
termination_by a b => a.length + b.length

/-- To keep equal first elements costs no more than anything else. -/
theorem distance_le (h : Aligned ops a b) : distance a b ≤ cost ops := by
  induction a, b using distance.induct generalizing ops with
  | case1 b =>
    rw [distance, cost_eq]
    have hlength := h.length
    rw [List.length_nil] at hlength
    omega
  | case2 x a =>
    rw [distance, cost_eq]
    have hlength := h.length
    rw [List.length_nil] at hlength
    omega
  | case3 a x b ih =>
    rw [distance, if_pos rfl]
    cases h with
    | keep x h => simpa using ih h
    | substitute x y h =>
      have hle := ih h
      simp only [ne_eq, reduceCtorEq, not_false_eq_true, cost_cons]
      omega
    | delete x h =>
      obtain ⟨ops', h', hle⟩ := h.edit (.delete x b)
      have hle' := ih h'
      simp only [ne_eq, reduceCtorEq, not_false_eq_true, cost_cons]
      omega
    | insert y h =>
      obtain ⟨ops', h', hle⟩ := h.tail
      have hle' := ih h'
      simp only [ne_eq, reduceCtorEq, not_false_eq_true, cost_cons]
      omega
  | case4 x a y b hne ih1 ih2 ih3 =>
    rw [distance, if_neg hne]
    cases h with
    | keep x h => exact absurd rfl hne
    | substitute x y h =>
      have hle := ih1 h
      simp only [ne_eq, reduceCtorEq, not_false_eq_true, cost_cons]
      omega
    | delete x h =>
      have hle := ih2 h
      simp only [ne_eq, reduceCtorEq, not_false_eq_true, cost_cons]
      omega
    | insert y h =>
      have hle := ih3 h
      simp only [ne_eq, reduceCtorEq, not_false_eq_true, cost_cons]
      omega

end edit_scripts
