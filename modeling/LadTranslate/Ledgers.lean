-- A queue and the record of what left it. Every item enters at the back and
-- leaves at the front, with a fate. So what entered is what left, in order,
-- followed by the queue, and nothing leaves twice.
import Mathlib

namespace ledgers

/-- A queue with the items that left it, each with its fate. -/
structure Ledger (α φ : Type*) where
  left : List (α × φ)
  queue : List α

variable {α φ : Type*}

namespace Ledger

def empty : Ledger α φ := ⟨[], []⟩

/-- Everything that entered, in order. -/
def entered (l : Ledger α φ) : List α := l.left.map Prod.fst ++ l.queue

/-- What left with one fate, in order. -/
def leftAs [DecidableEq φ] (l : Ledger α φ) (f : φ) : List α :=
  (l.left.filter fun x => x.2 = f).map Prod.fst

/-- One item enters at the back. -/
def enter (l : Ledger α φ) (a : α) : Ledger α φ := { l with queue := l.queue ++ [a] }

/-- The first `k` items leave with one fate. -/
def leave (l : Ledger α φ) (k : Nat) (f : φ) : Ledger α φ :=
  ⟨l.left ++ (l.queue.take k).map (·, f), l.queue.drop k⟩

@[simp] theorem enter_queue (l : Ledger α φ) (a : α) : (l.enter a).queue = l.queue ++ [a] := rfl

@[simp] theorem enter_left (l : Ledger α φ) (a : α) : (l.enter a).left = l.left := rfl

@[simp] theorem leave_queue (l : Ledger α φ) (k : Nat) (f : φ) :
    (l.leave k f).queue = l.queue.drop k := rfl

@[simp] theorem entered_empty : (empty : Ledger α φ).entered = [] := rfl

@[simp] theorem entered_enter (l : Ledger α φ) (a : α) : (l.enter a).entered = l.entered ++ [a] := by
  simp [entered, enter]

@[simp] theorem entered_leave (l : Ledger α φ) (k : Nat) (f : φ) :
    (l.leave k f).entered = l.entered := by
  simp [entered, leave, Function.comp_def]

variable [DecidableEq φ]

@[simp] theorem leftAs_empty (f : φ) : (empty : Ledger α φ).leftAs f = [] := rfl

@[simp] theorem leftAs_enter (l : Ledger α φ) (a : α) (f : φ) : (l.enter a).leftAs f = l.leftAs f :=
  rfl

@[simp] theorem leftAs_leave_self (l : Ledger α φ) (k : Nat) (f : φ) :
    (l.leave k f).leftAs f = l.leftAs f ++ l.queue.take k := by
  have hall : ((l.queue.take k).map (·, f)).filter (fun x => decide (x.2 = f)) =
      (l.queue.take k).map (·, f) := by
    rw [List.filter_eq_self]
    intro x hx
    obtain ⟨a, -, rfl⟩ := List.mem_map.mp hx
    simp
  rw [leftAs, leave, List.filter_append, hall, List.map_append, List.map_map]
  simp [leftAs, Function.comp_def]

theorem leftAs_leave_ne (l : Ledger α φ) (k : Nat) {f g : φ} (h : f ≠ g) :
    (l.leave k f).leftAs g = l.leftAs g := by
  have hnone : ((l.queue.take k).map (·, f)).filter (fun x => decide (x.2 = g)) = [] := by
    rw [List.filter_eq_nil_iff]
    intro x hx
    obtain ⟨a, -, rfl⟩ := List.mem_map.mp hx
    simp [h]
  rw [leftAs, leave, List.filter_append, hnone, List.append_nil, leftAs]

end Ledger

end ledgers
