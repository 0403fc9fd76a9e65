-- The fields of a list: the longest runs with no separator in them, as a
-- split on white space gives the words of a text. Fields joined with one
-- separator split back into themselves.
import Mathlib

namespace splitting

variable {α : Type*} (sep : α → Bool)

/-- The runs of `l` with no separator, empty runs left out. -/
def fields (l : List α) : List (List α) := (l.splitOnP sep).filter (! ·.isEmpty)

/-- A field holds something, and no separator. -/
def IsField (w : List α) : Prop := w ≠ [] ∧ ∀ x ∈ w, sep x = false

variable {sep}

theorem mem_splitOnP {l w : List α} (h : w ∈ l.splitOnP sep) : ∀ x ∈ w, sep x = false := by
  induction l generalizing w with
  | nil =>
    rw [List.splitOnP_nil, List.mem_singleton] at h
    simp [h]
  | cons a l ih =>
    rw [List.splitOnP_cons_eq_if_modifyHead] at h
    split at h
    · rcases List.mem_cons.mp h with rfl | h
      · simp
      · exact ih h
    · rename_i ha
      obtain ⟨v, vs, hv⟩ := List.exists_cons_of_ne_nil (List.splitOnP_ne_nil sep l)
      rw [hv, List.modifyHead_cons] at h
      rcases List.mem_cons.mp h with rfl | h
      · intro x hx
        rcases List.mem_cons.mp hx with rfl | hx
        · simpa using ha
        · exact ih (hv ▸ List.mem_cons_self) x hx
      · exact ih (hv ▸ List.mem_cons_of_mem _ h)

theorem mem_fields {l w : List α} (h : w ∈ fields sep l) : IsField sep w := by
  obtain ⟨hw, hne⟩ := List.mem_filter.mp h
  exact ⟨by simpa using hne, mem_splitOnP hw⟩

@[simp] theorem fields_nil : fields sep ([] : List α) = [] := rfl

theorem fields_of_isField {w : List α} (h : IsField sep w) : fields sep w = [w] := by
  unfold fields
  rw [List.splitOnP_eq_singleton h.2]
  simp [h.1]

/-- A separator ends a field, whatever stands before it. -/
theorem fields_append_cons (l : List α) {s : α} (hs : sep s = true) (r : List α) :
    fields sep (l ++ s :: r) = fields sep l ++ fields sep r := by
  unfold fields
  rw [List.splitOnP_append_cons l r hs, List.filter_append]

theorem fields_cons_sep {s : α} (hs : sep s = true) (l : List α) :
    fields sep (s :: l) = fields sep l := by
  rw [← List.nil_append (s :: l), fields_append_cons [] hs, fields_nil, List.nil_append]

theorem fields_append_sep {w : List α} (h : IsField sep w) {s : α} (hs : sep s = true)
    (l : List α) : fields sep (w ++ s :: l) = w :: fields sep l := by
  rw [fields_append_cons w hs, fields_of_isField h, List.singleton_append]

/-- The separators at either end make no field. -/
theorem fields_dropWhile (l : List α) : fields sep (l.dropWhile sep) = fields sep l := by
  induction l with
  | nil => rfl
  | cons x l ih =>
    by_cases hx : sep x = true
    · rw [List.dropWhile_cons_of_pos hx, ih, fields_cons_sep hx]
    · rw [List.dropWhile_cons_of_neg hx]

theorem fields_rdropWhile (l : List α) : fields sep (l.rdropWhile sep) = fields sep l := by
  induction l using List.reverseRecOn with
  | nil => rfl
  | append_singleton l x ih =>
    by_cases hx : sep x = true
    · rw [List.rdropWhile_concat_pos sep l x hx, ih, fields_append_cons l hx, fields_nil,
        List.append_nil]
    · rw [List.rdropWhile_concat_neg sep l x hx]

/-- Only separators have no field. -/
theorem fields_eq_nil_iff {l : List α} : fields sep l = [] ↔ ∀ x ∈ l, sep x = true := by
  induction l with
  | nil => simp
  | cons x l ih =>
    by_cases hx : sep x = true
    · rw [fields_cons_sep hx, ih, List.forall_mem_cons]
      exact ⟨fun h => ⟨hx, h⟩, fun h => h.2⟩
    · obtain ⟨w, ws, hw⟩ := List.exists_cons_of_ne_nil (List.splitOnP_ne_nil sep l)
      unfold fields
      rw [List.splitOnP_cons_eq_if_modifyHead, if_neg hx, hw, List.modifyHead_cons,
        List.filter_cons_of_pos (by simp)]
      constructor
      · intro h
        cases h
      · intro h
        exact absurd (h x List.mem_cons_self) hx

/-- Fields joined with a separator split back into the same fields. -/
theorem fields_intercalate {s : α} (hs : sep s = true) {ws : List (List α)}
    (h : ∀ w ∈ ws, IsField sep w) : fields sep ([s].intercalate ws) = ws := by
  induction ws with
  | nil => rfl
  | cons w ws ih =>
    have hw := h w List.mem_cons_self
    have hws := ih fun v hv => h v (List.mem_cons_of_mem _ hv)
    cases ws with
    | nil => rw [List.intercalate_singleton, fields_of_isField hw]
    | cons v vs =>
      rw [List.intercalate_cons_cons, List.append_assoc, List.singleton_append,
        fields_append_sep hw hs, hws]

end splitting
