-- Dictionaries: `AList` with one value type, and `setdefault`, which keeps
-- the first value given for a key.
import Mathlib

namespace dicts

/-- A dictionary. -/
abbrev Dict (κ : Type*) (α : Type*) := AList (fun _ : κ => α)

variable {κ α : Type*} [DecidableEq κ]

/-- Set a key that is not there, and keep the value of a key that is. -/
def setdefault (d : Dict κ α) (k : κ) (v : α) : Dict κ α :=
  if k ∈ d then d else d.insert k v

theorem lookup_setdefault_ne {d : Dict κ α} {k k' : κ} {v : α} (h : k' ≠ k) :
    (setdefault d k v).lookup k' = d.lookup k' := by
  unfold setdefault
  split
  · rfl
  · exact AList.lookup_insert_ne h

theorem lookup_setdefault_of_some {d : Dict κ α} {k : κ} {v w : α} (h : d.lookup k = some w) :
    (setdefault d k v).lookup k = some w := by
  have hk : k ∈ d := AList.lookup_isSome.mp (by simp [h])
  rw [setdefault, if_pos hk, h]

theorem lookup_setdefault_of_none {d : Dict κ α} {k : κ} {v : α} (h : d.lookup k = none) :
    (setdefault d k v).lookup k = some v := by
  have hk : k ∉ d := AList.lookup_eq_none.mp h
  rw [setdefault, if_neg hk, AList.lookup_insert]

/-- To set a key that is there adds no key. -/
theorem keys_insert_of_mem {d : Dict κ α} {k : κ} {v : α} (h : k ∈ d) :
    (d.insert k v).keys.Perm d.keys := by
  rw [AList.keys_insert]
  exact (List.perm_cons_erase h).symm

theorem keys_insert_of_not_mem {d : Dict κ α} {k : κ} {v : α} (h : k ∉ d) :
    (d.insert k v).keys = k :: d.keys := by
  rw [AList.keys_insert, List.erase_of_not_mem h]

/-- To erase a key that is there takes it away. -/
theorem keys_erase_of_mem {d : Dict κ α} {k : κ} (h : k ∈ d) :
    (k :: (d.erase k).keys).Perm d.keys := by
  rw [AList.keys_erase]
  exact (List.perm_cons_erase h).symm

theorem mem_of_lookup {d : Dict κ α} {k : κ} {v : α} (h : d.lookup k = some v) : k ∈ d :=
  AList.lookup_isSome.mp (by rw [h]; rfl)

/-- `setdefault` for each pair of a list, in order. -/
def setdefaults (d : Dict κ α) (l : List (κ × α)) : Dict κ α :=
  l.foldl (fun d p => setdefault d p.1 p.2) d

theorem lookup_setdefaults (d : Dict κ α) (l : List (κ × α)) (k : κ) :
    (setdefaults d l).lookup k = (d.lookup k).or ((l.find? (·.1 = k)).map (·.2)) := by
  induction l generalizing d with
  | nil => simp [setdefaults]
  | cons p l ih =>
    rw [setdefaults, List.foldl_cons, ← setdefaults, ih, List.find?_cons]
    by_cases hk : p.1 = k
    · subst hk
      cases hd : d.lookup p.1 with
      | none => simp [lookup_setdefault_of_none hd]
      | some w => simp [lookup_setdefault_of_some hd]
    · simp [hk, lookup_setdefault_ne (Ne.symm hk)]

/-- When the values of the list never decrease, the value of a key is the
least one given for it. -/
theorem lookup_setdefaults_le_iff [Preorder α] {l : List (κ × α)}
    (hl : l.Pairwise fun p q => p.2 ≤ q.2) {k : κ} {w b : α}
    (hw : (setdefaults ∅ l).lookup k = some w) : w ≤ b ↔ ∃ v, (k, v) ∈ l ∧ v ≤ b := by
  rw [lookup_setdefaults, AList.lookup_empty, Option.none_or, Option.map_eq_some_iff] at hw
  obtain ⟨p, hp, rfl⟩ := hw
  rw [List.find?_eq_some_iff_append] at hp
  obtain ⟨hk, xs, ys, rfl, hxs⟩ := hp
  simp only [decide_eq_true_eq] at hk
  constructor
  · intro h
    exact ⟨p.2, by simp [← hk], h⟩
  · rintro ⟨v, hv, hvb⟩
    rcases List.mem_append.mp hv with hv | hv
    · exact absurd (hxs _ hv) (by simp)
    · rcases List.mem_cons.mp hv with hv | hv
      · exact (congrArg Prod.snd hv) ▸ hvb
      · exact ((List.pairwise_cons.mp (List.pairwise_append.mp hl).2.1).1 _ hv).trans hvb

/-- New values for some keys, each from the value before it: a key of the list has
its new value, and the others have the one they had. -/
theorem lookup_updates {β : Type*} (f : Option α → β → α) (l : List (κ × β))
    (hl : (l.map Prod.fst).Nodup) (d : Dict κ α) (k : κ) :
    (l.foldl (fun d p => d.insert p.1 (f (d.lookup p.1) p.2)) d).lookup k =
      match l.lookup k with
      | some v => some (f (d.lookup k) v)
      | none => d.lookup k := by
  induction l generalizing d with
  | nil => rfl
  | cons p l ih =>
    rw [List.map_cons, List.nodup_cons] at hl
    rw [List.foldl_cons, ih hl.2, List.lookup_cons]
    by_cases hk : k = p.1
    · subst hk
      have hnone : l.lookup p.1 = none := by
        rw [List.lookup_eq_none_iff]
        intro q hq
        simpa using fun heq : p.1 = q.1 => hl.1 (heq ▸ List.mem_map_of_mem hq)
      simp [hnone, AList.lookup_insert]
    · rw [beq_false_of_ne hk, AList.lookup_insert_ne hk]

end dicts
