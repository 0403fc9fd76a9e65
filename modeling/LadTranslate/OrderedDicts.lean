-- Dictionaries that keep their keys in the order in which they were first set,
-- as Python's do. The laws say what a lookup finds after each operation.
import Mathlib

namespace ordered_dicts

/-- The entries, with no key twice. -/
structure OrderedDict (κ α : Type*) where
  entries : List (κ × α)
  nodup : (entries.map Prod.fst).Nodup

namespace OrderedDict

variable {κ α : Type*}

def empty : OrderedDict κ α := ⟨[], List.nodup_nil⟩

def keys (d : OrderedDict κ α) : List κ := d.entries.map Prod.fst

theorem keys_nodup (d : OrderedDict κ α) : d.keys.Nodup := d.nodup

variable [DecidableEq κ]

/-! ## Lookup -/

def lookupIn (k : κ) : List (κ × α) → Option α
  | [] => none
  | (k', v) :: rest => if k' = k then some v else lookupIn k rest

/-- `d.get(k)`. -/
def get? (d : OrderedDict κ α) (k : κ) : Option α := lookupIn k d.entries

theorem lookupIn_eq_none {k : κ} {l : List (κ × α)} :
    lookupIn k l = none ↔ k ∉ l.map Prod.fst := by
  induction l with
  | nil => simp [lookupIn]
  | cons p l ih =>
    rw [lookupIn, List.map_cons, List.mem_cons, not_or]
    by_cases hp : p.1 = k
    · simp [hp]
    · rw [if_neg hp, ih]
      exact ⟨fun h => ⟨Ne.symm hp, h⟩, fun h => h.2⟩

theorem lookupIn_of_mem {k : κ} {v : α} {l : List (κ × α)} (hl : (l.map Prod.fst).Nodup)
    (h : (k, v) ∈ l) : lookupIn k l = some v := by
  induction l with
  | nil => cases h
  | cons p l ih =>
    rw [List.map_cons, List.nodup_cons] at hl
    rw [lookupIn]
    rcases List.mem_cons.mp h with rfl | h
    · rw [if_pos rfl]
    · have hne : p.1 ≠ k := by
        intro heq
        exact hl.1 (List.mem_map.mpr ⟨(k, v), h, heq.symm⟩)
      rw [if_neg hne, ih hl.2 h]

theorem mem_of_lookupIn {k : κ} {v : α} {l : List (κ × α)} (h : lookupIn k l = some v) :
    (k, v) ∈ l := by
  induction l with
  | nil => cases h
  | cons p l ih =>
    rw [lookupIn] at h
    by_cases hp : p.1 = k
    · rw [if_pos hp] at h
      cases h
      rw [← hp]
      exact List.mem_cons_self
    · rw [if_neg hp] at h
      exact List.mem_cons_of_mem _ (ih h)

theorem get?_eq_some {d : OrderedDict κ α} {k : κ} {v : α} :
    d.get? k = some v ↔ (k, v) ∈ d.entries :=
  ⟨mem_of_lookupIn, lookupIn_of_mem d.nodup⟩

theorem get?_eq_none {d : OrderedDict κ α} {k : κ} : d.get? k = none ↔ k ∉ d.keys :=
  lookupIn_eq_none

theorem mem_keys {d : OrderedDict κ α} {k : κ} : k ∈ d.keys ↔ ∃ v, d.get? k = some v := by
  rw [← not_iff_not, ← get?_eq_none, Option.eq_none_iff_forall_ne_some, not_exists]

@[simp] theorem get?_empty (k : κ) : (empty : OrderedDict κ α).get? k = none := rfl

/-! ## One key -/

/-- Change the value of a key in its place, or set it after the others. -/
def alterIn (k : κ) (f : Option α → α) : List (κ × α) → List (κ × α)
  | [] => [(k, f none)]
  | (k', v) :: rest =>
    if k' = k then (k', f (some v)) :: rest else (k', v) :: alterIn k f rest

theorem keys_alterIn (k : κ) (f : Option α → α) (l : List (κ × α)) :
    (alterIn k f l).map Prod.fst =
      if k ∈ l.map Prod.fst then l.map Prod.fst else l.map Prod.fst ++ [k] := by
  induction l with
  | nil => rfl
  | cons p l ih =>
    rw [alterIn, List.map_cons]
    by_cases hp : p.1 = k
    · simp [hp]
    · rw [if_neg hp, List.map_cons, ih]
      have hmem : k ∈ p.1 :: l.map Prod.fst ↔ k ∈ l.map Prod.fst := by
        rw [List.mem_cons]
        exact ⟨fun h => h.resolve_left (Ne.symm hp), .inr⟩
      by_cases hk : k ∈ l.map Prod.fst
      · rw [if_pos hk, if_pos (hmem.mpr hk)]
      · rw [if_neg hk, if_neg (mt hmem.mp hk), List.cons_append]

def alter (d : OrderedDict κ α) (k : κ) (f : Option α → α) : OrderedDict κ α where
  entries := alterIn k f d.entries
  nodup := by
    rw [keys_alterIn]
    split
    · exact d.nodup
    · rename_i hk
      exact List.nodup_append'.mpr ⟨d.nodup, List.nodup_singleton k, by simpa using hk⟩

/-- `d[k] = v`. -/
def set (d : OrderedDict κ α) (k : κ) (v : α) : OrderedDict κ α := d.alter k fun _ => v

theorem get?_alter_self (d : OrderedDict κ α) (k : κ) (f : Option α → α) :
    (d.alter k f).get? k = some (f (d.get? k)) := by
  obtain ⟨l, hl⟩ := d
  unfold alter get?
  simp only
  clear hl
  induction l with
  | nil => simp [alterIn, lookupIn]
  | cons p l ih =>
    by_cases hp : p.1 = k
    · simp [alterIn, lookupIn, hp]
    · rw [alterIn, if_neg hp, lookupIn, if_neg hp, lookupIn, if_neg hp, ih]

theorem get?_alter_ne (d : OrderedDict κ α) {k k' : κ} (h : k' ≠ k) (f : Option α → α) :
    (d.alter k f).get? k' = d.get? k' := by
  obtain ⟨l, hl⟩ := d
  unfold alter get?
  simp only
  clear hl
  induction l with
  | nil => simp [alterIn, lookupIn, h.symm]
  | cons p l ih =>
    by_cases hp : p.1 = k
    · have hne : p.1 ≠ k' := fun heq => h (heq.symm.trans hp)
      rw [alterIn, if_pos hp, lookupIn, if_neg hne, lookupIn, if_neg hne]
    · rw [alterIn, if_neg hp, lookupIn, lookupIn, ih]

theorem get?_set (d : OrderedDict κ α) (k k' : κ) (v : α) :
    (d.set k v).get? k' = if k' = k then some v else d.get? k' := by
  by_cases hk : k' = k
  · rw [if_pos hk, hk, set, get?_alter_self]
  · rw [if_neg hk, set, get?_alter_ne d hk]

/-- A new key comes after the others. -/
theorem entries_set_of_none {d : OrderedDict κ α} {k : κ} (h : d.get? k = none) (v : α) :
    (d.set k v).entries = d.entries ++ [(k, v)] := by
  obtain ⟨l, hl⟩ := d
  unfold set alter
  unfold get? at h
  simp only at h ⊢
  clear hl
  induction l with
  | nil => rfl
  | cons p l ih =>
    rw [lookupIn] at h
    by_cases hp : p.1 = k
    · rw [if_pos hp] at h
      cases h
    · rw [if_neg hp] at h
      rw [alterIn, if_neg hp, ih h, List.cons_append]

/-! ## Many keys -/

/-- `{k: f(k) for k in l}`. -/
def ofKeys (f : κ → α) (l : List κ) : OrderedDict κ α := l.foldl (fun d k => d.set k (f k)) empty

theorem get?_ofKeys (f : κ → α) (l : List κ) (k : κ) :
    (ofKeys f l).get? k = if k ∈ l then some (f k) else none := by
  unfold ofKeys
  induction l using List.reverseRecOn with
  | nil => rfl
  | append_singleton l a ih =>
    rw [List.foldl_append, List.foldl_cons, List.foldl_nil, get?_set, ih]
    by_cases hk : k = a
    · simp [hk]
    · simp [hk]

theorem mem_keys_ofKeys {f : κ → α} {l : List κ} {k : κ} : k ∈ (ofKeys f l).keys ↔ k ∈ l := by
  rw [mem_keys, get?_ofKeys]
  by_cases hk : k ∈ l
  · simp [hk]
  · simp [hk]

theorem keys_ofKeys_perm (f : κ → α) (l : List κ) : (ofKeys f l).keys.Perm l.dedup := by
  apply (List.perm_ext_iff_of_nodup (keys_nodup _) (List.nodup_dedup l)).mpr
  intro k
  rw [mem_keys_ofKeys, List.mem_dedup]

/-- The entries are the keys, each once, with their values. -/
theorem entries_ofKeys (f : κ → α) (l : List κ) :
    (ofKeys f l).entries = (ofKeys f l).keys.map fun k => (k, f k) := by
  have hvalue : ∀ p ∈ (ofKeys f l).entries, p.2 = f p.1 := by
    intro p hp
    have hget := get?_eq_some.mpr hp
    rw [get?_ofKeys] at hget
    split at hget
    · exact (Option.some.inj hget).symm
    · cases hget
  rw [keys, List.map_map]
  conv_lhs => rw [← List.map_id (ofKeys f l).entries]
  apply List.map_congr_left
  intro p hp
  exact Prod.ext rfl (hvalue p hp)

/-- How often each key comes. -/
def tally (l : List κ) : OrderedDict κ Nat :=
  l.foldl (fun d k => d.alter k fun n => n.getD 0 + 1) empty

theorem get?_tally (l : List κ) (k : κ) :
    (tally l).get? k = if k ∈ l then some (l.count k) else none := by
  unfold tally
  induction l using List.reverseRecOn with
  | nil => rfl
  | append_singleton l a ih =>
    rw [List.foldl_append, List.foldl_cons, List.foldl_nil]
    by_cases hk : k = a
    · subst hk
      have hhere : k ∈ l ++ [k] := by simp
      rw [get?_alter_self, ih, if_pos hhere, List.count_append, List.count_singleton_self]
      by_cases hmem : k ∈ l
      · rw [if_pos hmem, Option.getD_some]
      · rw [if_neg hmem, Option.getD_none, List.count_eq_zero_of_not_mem hmem]
    · have hmem : k ∈ l ++ [a] ↔ k ∈ l := by simp [hk]
      have hcount : [a].count k = 0 := List.count_eq_zero.mpr (by simpa using hk)
      rw [get?_alter_ne _ hk, ih, List.count_append, hcount, Nat.add_zero]
      simp only [hmem]

/-- Set each pair, in order. -/
def setAll (d : OrderedDict κ α) (l : List (κ × α)) : OrderedDict κ α :=
  l.foldl (fun d p => d.set p.1 p.2) d

/-- `d.update(e)`. -/
def update (d e : OrderedDict κ α) : OrderedDict κ α := d.setAll e.entries

theorem get?_update (d e : OrderedDict κ α) (k : κ) :
    (d.update e).get? k = (e.get? k).or (d.get? k) := by
  obtain ⟨l, hl⟩ := e
  unfold update setAll get?
  simp only
  induction l generalizing d with
  | nil => rfl
  | cons p l ih =>
    rw [List.map_cons, List.nodup_cons] at hl
    rw [List.foldl_cons, ih (d.set p.1 p.2) hl.2, lookupIn]
    change (lookupIn k l).or ((d.set p.1 p.2).get? k) = _
    rw [get?_set]
    by_cases hp : p.1 = k
    · subst hp
      rw [if_pos rfl, if_pos rfl, lookupIn_eq_none.mpr hl.1, Option.none_or, Option.some_or]
    · rw [if_neg hp, if_neg (Ne.symm hp)]
      rfl

/-- The values of each key, in order: `setdefault(k, []).append(v)` for each pair. -/
def group (pairs : List (κ × α)) : OrderedDict κ (List α) :=
  pairs.foldl (fun d p => d.alter p.1 fun vs => vs.getD [] ++ [p.2]) empty

/-- The values that some pairs have for a key. -/
def share (pairs : List (κ × α)) (k : κ) : List α :=
  (pairs.filter fun p => p.1 = k).map Prod.snd

theorem get?_group (pairs : List (κ × α)) (k : κ) :
    (group pairs).get? k = if share pairs k = [] then none else some (share pairs k) := by
  unfold group share
  induction pairs using List.reverseRecOn with
  | nil => rfl
  | append_singleton pairs p ih =>
    rw [List.foldl_append, List.foldl_cons, List.foldl_nil, List.filter_append, List.map_append]
    by_cases hp : p.1 = k
    · subst hp
      rw [get?_alter_self, ih, List.filter_cons_of_pos (by simp)]
      by_cases hnil : (pairs.filter fun q => q.1 = p.1).map Prod.snd = []
      · simp [hnil]
      · rw [if_neg hnil]
        simp
    · rw [get?_alter_ne _ (Ne.symm hp), ih, List.filter_cons_of_neg (by simpa using hp),
        List.filter_nil, List.map_nil, List.append_nil]

/-- `update` with each of some dictionaries, in order. -/
def merge (parts : List (OrderedDict κ α)) : OrderedDict κ α := parts.foldl update empty

theorem merge_snoc (parts : List (OrderedDict κ α)) (part : OrderedDict κ α) :
    merge (parts ++ [part]) = (merge parts).update part := by
  unfold merge
  rw [List.foldl_append, List.foldl_cons, List.foldl_nil]

theorem mem_keys_merge {parts : List (OrderedDict κ α)} {k : κ} :
    k ∈ (merge parts).keys ↔ ∃ part ∈ parts, k ∈ part.keys := by
  induction parts using List.reverseRecOn with
  | nil => simp [merge, keys, empty]
  | append_singleton parts part ih =>
    rw [merge_snoc, mem_keys, get?_update]
    cases hk : part.get? k with
    | none =>
      have hnot := get?_eq_none.mp hk
      rw [Option.none_or, ← mem_keys, ih]
      simp [hnot]
    | some v =>
      have hmem := mem_keys.mpr ⟨v, hk⟩
      simp [hmem]

/-- Where all that have a key agree on it, the merged dictionary has their value. -/
theorem get?_merge {parts : List (OrderedDict κ α)} {k : κ} {v : α}
    (hsome : ∃ part ∈ parts, k ∈ part.keys)
    (hagree : ∀ part ∈ parts, k ∈ part.keys → part.get? k = some v) :
    (merge parts).get? k = some v := by
  induction parts using List.reverseRecOn with
  | nil => simp at hsome
  | append_singleton parts part ih =>
    rw [merge_snoc, get?_update]
    by_cases hk : k ∈ part.keys
    · rw [hagree part (by simp) hk, Option.some_or]
    · rw [get?_eq_none.mpr hk, Option.none_or]
      apply ih
      · obtain ⟨other, hother, hmem⟩ := hsome
        rcases List.mem_append.mp hother with hother | hother
        · exact ⟨other, hother, hmem⟩
        · exact absurd (List.mem_singleton.mp hother ▸ hmem) hk
      · intro other hother
        exact hagree other (List.mem_append_left _ hother)

end OrderedDict

end ordered_dicts
