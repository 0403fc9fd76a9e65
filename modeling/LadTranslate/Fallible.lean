-- Computations that can fail: when one that is made of others succeeds, and
-- what holds after a loop that stops at the first error.
import Mathlib

namespace fallible

universe u v w

theorem toOption_eq_some {ε : Type u} {α : Type v} {x : Except ε α} {a : α} :
    x.toOption = some a ↔ x = .ok a := by
  cases x with
  | error e => exact ⟨fun h => (by cases h), fun h => (by cases h)⟩
  | ok b => exact ⟨fun h => congrArg Except.ok (Option.some.inj h), fun h => (by cases h; rfl)⟩

theorem bind_eq_ok {ε : Type u} {α β : Type v} {x : Except ε α} {f : α → Except ε β} {b : β} :
    x >>= f = .ok b ↔ ∃ a, x = .ok a ∧ f a = .ok b := by
  cases x with
  | error e =>
    refine ⟨fun h => ?_, fun ⟨a, h, _⟩ => ?_⟩ <;> cases h
  | ok a =>
    refine ⟨fun h => ⟨a, rfl, h⟩, fun ⟨a', h, hf⟩ => ?_⟩
    cases h
    exact hf

theorem map_eq_ok {ε : Type u} {α β : Type v} {x : Except ε α} {f : α → β} {b : β} :
    x.map f = .ok b ↔ ∃ a, x = .ok a ∧ f a = b := by
  cases x with
  | error e =>
    refine ⟨fun h => ?_, fun ⟨a, h, _⟩ => ?_⟩ <;> cases h
  | ok a =>
    refine ⟨fun h => ⟨a, rfl, Except.ok.inj h⟩, fun ⟨a', h, hf⟩ => ?_⟩
    cases h
    exact congrArg _ hf

theorem mapError_eq_ok {ε δ : Type u} {α : Type v} {x : Except ε α} {f : ε → δ} {a : α} :
    x.mapError f = .ok a ↔ x = .ok a := by
  cases x with
  | error e => exact ⟨fun h => (by cases h), fun h => (by cases h)⟩
  | ok b => exact ⟨fun h => congrArg Except.ok (Except.ok.inj h), fun h => (by cases h; rfl)⟩

/-- A map over a list succeeds when each of its elements does. -/
theorem mapM_ok {ε : Type u} {α : Type w} {β : Type v} {f : α → Except ε β} {l : List α}
    (h : ∀ x ∈ l, ∃ y, f x = .ok y) : ∃ ys, l.mapM f = .ok ys := by
  induction l with
  | nil => exact ⟨[], rfl⟩
  | cons x l ih =>
    obtain ⟨y, hy⟩ := h x List.mem_cons_self
    obtain ⟨ys, hys⟩ := ih fun z hz => h z (List.mem_cons_of_mem _ hz)
    refine ⟨y :: ys, ?_⟩
    rw [List.mapM_cons]
    exact bind_eq_ok.mpr ⟨y, hy, bind_eq_ok.mpr ⟨ys, hys, rfl⟩⟩

/-- A map over a list with an option gives a value for each element, and no other. -/
theorem mem_of_mapM_eq_some {α : Type u} {β : Type v} {f : α → Option β} {l : List α} {ys : List β}
    (h : l.mapM f = some ys) :
    (∀ x ∈ l, ∃ y ∈ ys, f x = some y) ∧ ∀ y ∈ ys, ∃ x ∈ l, f x = some y := by
  induction l generalizing ys with
  | nil =>
    cases h
    simp
  | cons x l ih =>
    rw [List.mapM_cons] at h
    obtain ⟨y, hy, h⟩ := Option.bind_eq_some_iff.mp h
    obtain ⟨zs, hzs, h⟩ := Option.bind_eq_some_iff.mp h
    cases h
    obtain ⟨hto, hfrom⟩ := ih hzs
    constructor
    · intro z hz
      rcases List.mem_cons.mp hz with rfl | hz
      · exact ⟨y, List.mem_cons_self, hy⟩
      · obtain ⟨w, hw, hfw⟩ := hto z hz
        exact ⟨w, List.mem_cons_of_mem _ hw, hfw⟩
    · intro w hw
      rcases List.mem_cons.mp hw with rfl | hw
      · exact ⟨x, List.mem_cons_self, hy⟩
      · obtain ⟨z, hz, hfz⟩ := hfrom w hw
        exact ⟨z, List.mem_cons_of_mem _ hz, hfz⟩

/-- A map over a list with an option gives the value of each element in its place. -/
theorem mapM_eq_some_iff {α : Type u} {β : Type v} {f : α → Option β} {l : List α} {ys : List β} :
    l.mapM f = some ys ↔ l.map f = ys.map some := by
  induction l generalizing ys with
  | nil =>
    cases ys with
    | nil => simp
    | cons y ys => simp
  | cons x l ih =>
    rw [List.mapM_cons, List.map_cons]
    constructor
    · intro h
      obtain ⟨y, hy, h⟩ := Option.bind_eq_some_iff.mp h
      obtain ⟨zs, hzs, h⟩ := Option.bind_eq_some_iff.mp h
      cases h
      rw [hy, ih.mp hzs, List.map_cons]
    · intro h
      cases ys with
      | nil => cases h
      | cons y ys =>
        obtain ⟨hy, hys⟩ := List.cons.inj h
        rw [hy, ih.mpr hys]
        rfl

theorem exists_of_mapM_eq_none {α : Type u} {β : Type v} {f : α → Option β} {l : List α}
    (h : l.mapM f = none) : ∃ x ∈ l, f x = none := by
  by_contra hall
  simp only [not_exists, not_and] at hall
  have hsome : ∀ x ∈ l, ∃ y, f x = some y := fun x hx => Option.ne_none_iff_exists'.mp (hall x hx)
  clear hall
  induction l with
  | nil => cases h
  | cons x l ih =>
    obtain ⟨y, hy⟩ := hsome x List.mem_cons_self
    rw [List.mapM_cons, hy] at h
    refine ih ?_ fun z hz => hsome z (List.mem_cons_of_mem _ hz)
    cases hl : l.mapM f with
    | none => rfl
    | some ys =>
      rw [hl] at h
      cases h

/-- What each turn of a loop keeps, given the elements so far, holds at its end. -/
theorem foldlM_induction {ε : Type u} {β : Type v} {α : Type w} {f : β → α → Except ε β}
    {P : List α → β → Prop} (hstep : ∀ xs b x c, P xs b → f b x = .ok c → P (xs ++ [x]) c)
    {xs : List α} {b c : β} (h : P [] b) (hfold : xs.foldlM f b = .ok c) : P xs c := by
  induction xs using List.reverseRecOn generalizing c with
  | nil =>
    cases hfold
    exact h
  | append_singleton xs x ih =>
    rw [List.foldlM_append] at hfold
    obtain ⟨d, hd, hx⟩ := bind_eq_ok.mp hfold
    rw [List.foldlM_cons] at hx
    obtain ⟨e, he, hnil⟩ := bind_eq_ok.mp hx
    cases hnil
    exact hstep xs d x c (ih hd) he

/-- A loop whose turns succeed from every state comes to its end. -/
theorem foldlM_ok {ε : Type u} {β : Type v} {α : Type w} {f : β → α → Except ε β} {xs : List α}
    (h : ∀ x ∈ xs, ∀ b, ∃ c, f b x = .ok c) (b : β) : ∃ c, xs.foldlM f b = .ok c := by
  induction xs generalizing b with
  | nil => exact ⟨b, rfl⟩
  | cons x xs ih =>
    obtain ⟨c, hc⟩ := h x List.mem_cons_self b
    obtain ⟨d, hd⟩ := ih (fun y hy => h y (List.mem_cons_of_mem _ hy)) c
    refine ⟨d, ?_⟩
    rw [List.foldlM_cons]
    exact bind_eq_ok.mpr ⟨c, hc, hd⟩

end fallible
