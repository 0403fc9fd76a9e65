-- Keyed tables: rows with a key that no two rows share, and the statements
-- that insert a row and that change the rows a condition picks. The laws say
-- what a statement leaves of the rows, and which rows it cannot touch.
import Mathlib

namespace tables

/-- Rows, in the order of their insertion, with one row for each key. -/
structure Table (ρ κ : Type*) (key : ρ → κ) where
  rows : List ρ
  unique : (rows.map key).Nodup

variable {ρ κ ε : Type*} {key : ρ → κ}

/-! ## Changes of rows -/

/-- Change the rows that a condition picks, all of them or, when one change
fails, none. Gives the new rows, and which of them were changed. -/
def change (pick : ρ → Bool) (f : ρ → Except ε ρ) : List ρ → Except ε (List ρ × List ρ)
  | [] => .ok ([], [])
  | r :: rs => do
    if pick r then
      let r' ← f r
      let (rows, changed) ← change pick f rs
      return (r' :: rows, r' :: changed)
    else
      let (rows, changed) ← change pick f rs
      return (r :: rows, changed)

/-- How a row comes out of a change. -/
def Comes (pick : ρ → Bool) (f : ρ → Except ε ρ) (r r' : ρ) : Prop :=
  (pick r = true ∧ f r = .ok r') ∨ (pick r = false ∧ r' = r)

variable {pick : ρ → Bool} {f : ρ → Except ε ρ}

theorem change_spec {rs rows changed : List ρ} (h : change pick f rs = .ok (rows, changed)) :
    List.Forall₂ (Comes pick f) rs rows ∧
      ∀ r', r' ∈ changed ↔ ∃ r ∈ rs, pick r = true ∧ f r = .ok r' := by
  induction rs generalizing rows changed with
  | nil =>
    cases h
    simp
  | cons r rs ih =>
    unfold change at h
    by_cases hpick : pick r = true
    · rw [if_pos hpick] at h
      rcases hf : f r with e | r'
      · rw [hf] at h
        cases h
      · rcases hrest : change pick f rs with e | ⟨rows', changed'⟩
        · rw [hf, hrest] at h
          cases h
        · rw [hf, hrest] at h
          cases h
          obtain ⟨hall, hmem⟩ := ih hrest
          refine ⟨.cons (.inl ⟨hpick, hf⟩) hall, ?_⟩
          intro x
          simp only [List.mem_cons, hmem, exists_eq_or_imp, hpick, hf, true_and, Except.ok.injEq]
          exact or_congr_left eq_comm
    · rw [if_neg hpick] at h
      rcases hrest : change pick f rs with e | ⟨rows', changed'⟩
      · rw [hrest] at h
        cases h
      · rw [hrest] at h
        cases h
        obtain ⟨hall, hmem⟩ := ih hrest
        refine ⟨.cons (.inr ⟨by simpa using hpick, rfl⟩) hall, ?_⟩
        intro x
        simp [hmem, hpick]

/-- A change that picks no row of a kind, and makes no row of that kind, leaves
the rows of that kind as they were. -/
theorem filter_change {rs rows : List ρ} (h : List.Forall₂ (Comes pick f) rs rows) (q : ρ → Bool)
    (hq : ∀ r ∈ rs, ∀ r', pick r = true → f r = .ok r' → r' = r ∨ (q r = false ∧ q r' = false)) :
    rows.filter q = rs.filter q := by
  induction h with
  | nil => rfl
  | @cons r r' rs rows hcomes hall ih =>
    have hrest := ih fun x hx => hq x (List.mem_cons_of_mem _ hx)
    rcases hcomes with ⟨hpick, hf⟩ | ⟨-, rfl⟩
    · rcases hq r List.mem_cons_self r' hpick hf with rfl | ⟨hr, hr'⟩
      · rw [List.filter_cons, List.filter_cons, hrest]
      · simp [hr, hr', hrest]
    · rw [List.filter_cons, List.filter_cons, hrest]

/-- The rows after a change, each with the row that it was. -/
theorem mem_change {rs rows : List ρ} (h : List.Forall₂ (Comes pick f) rs rows) {r' : ρ}
    (hr' : r' ∈ rows) : ∃ r ∈ rs, Comes pick f r r' := by
  induction h with
  | nil => cases hr'
  | @cons a b rs rows hcomes hall ih =>
    rcases List.mem_cons.mp hr' with rfl | hr'
    · exact ⟨a, List.mem_cons_self, hcomes⟩
    · obtain ⟨r, hr, hcomes'⟩ := ih hr'
      exact ⟨r, List.mem_cons_of_mem _ hr, hcomes'⟩

/-- The rows before a change, each with the row that it became. -/
theorem change_mem {rs rows : List ρ} (h : List.Forall₂ (Comes pick f) rs rows) {r : ρ}
    (hr : r ∈ rs) : ∃ r' ∈ rows, Comes pick f r r' := by
  induction h with
  | nil => cases hr
  | @cons a b rs rows hcomes hall ih =>
    rcases List.mem_cons.mp hr with rfl | hr
    · exact ⟨b, List.mem_cons_self, hcomes⟩
    · obtain ⟨r', hr', hcomes'⟩ := ih hr
      exact ⟨r', List.mem_cons_of_mem _ hr', hcomes'⟩

theorem map_change {rs rows : List ρ} (h : List.Forall₂ (Comes pick f) rs rows)
    (hkey : ∀ r r', f r = .ok r' → key r' = key r) : rows.map key = rs.map key := by
  induction h with
  | nil => rfl
  | cons hcomes hall ih =>
    rw [List.map_cons, List.map_cons, ih]
    rcases hcomes with ⟨-, hf⟩ | ⟨-, rfl⟩
    · rw [hkey _ _ hf]
    · rfl

namespace Table

/-- The table without rows. -/
def empty : Table ρ κ key := ⟨[], List.nodup_nil⟩

variable [DecidableEq κ]

/-- `INSERT`. With the key of a row that is there, it fails. -/
def insert (t : Table ρ κ key) (r : ρ) : Option (Table ρ κ key) :=
  if h : key r ∈ t.rows.map key then none
  else some ⟨t.rows ++ [r], by
    rw [List.map_append, List.nodup_append]
    refine ⟨t.unique, List.nodup_singleton _, ?_⟩
    intro a ha b hb
    rintro rfl
    exact h ((List.mem_singleton.mp hb) ▸ ha)⟩

theorem insert_eq_some {t t' : Table ρ κ key} {r : ρ} (h : t.insert r = some t') :
    t'.rows = t.rows ++ [r] ∧ key r ∉ t.rows.map key := by
  unfold insert at h
  split at h
  · cases h
  · cases h
    exact ⟨rfl, ‹_›⟩

theorem insert_eq_none {t : Table ρ κ key} {r : ρ} :
    t.insert r = none ↔ key r ∈ t.rows.map key := by
  unfold insert
  split
  · exact iff_of_true rfl ‹_›
  · refine ⟨fun h => (by cases h), fun h => absurd h ‹_›⟩

omit [DecidableEq κ] in
/-- `UPDATE`, by changes that keep the key. -/
def update (t : Table ρ κ key) (pick : ρ → Bool) (f : ρ → Except ε ρ)
    (hkey : ∀ r r', f r = .ok r' → key r' = key r) : Except ε (Table ρ κ key × List ρ) :=
  match h : change pick f t.rows with
  | .error e => .error e
  | .ok (rows, changed) => .ok (⟨rows, by
      rw [map_change (change_spec h).1 hkey]
      exact t.unique⟩, changed)

omit [DecidableEq κ] in
theorem update_eq_ok {t t' : Table ρ κ key} {changed : List ρ}
    {hkey : ∀ r r', f r = .ok r' → key r' = key r} (h : t.update pick f hkey = .ok (t', changed)) :
    List.Forall₂ (Comes pick f) t.rows t'.rows ∧
      ∀ r', r' ∈ changed ↔ ∃ r ∈ t.rows, pick r = true ∧ f r = .ok r' := by
  unfold update at h
  split at h
  · cases h
  · rename_i rows changed' hchange
    cases h
    exact change_spec hchange

omit [DecidableEq κ] in
/-- An update keeps the keys. -/
theorem update_keys {t t' : Table ρ κ key} {changed : List ρ}
    {hkey : ∀ r r', f r = .ok r' → key r' = key r} (h : t.update pick f hkey = .ok (t', changed)) :
    t'.rows.map key = t.rows.map key :=
  map_change (update_eq_ok h).1 hkey

omit [DecidableEq κ] in
/-- When no change of a picked row fails, the update goes through. -/
theorem update_ok (t : Table ρ κ key) (pick : ρ → Bool) (hkey : ∀ r r', f r = .ok r' → key r' = key r)
    (hf : ∀ r ∈ t.rows, pick r = true → ∃ r', f r = .ok r') :
    ∃ t' changed, t.update pick f hkey = .ok (t', changed) := by
  have hchange : ∀ rs : List ρ, (∀ r ∈ rs, pick r = true → ∃ r', f r = .ok r') →
      ∃ rows changed, change pick f rs = .ok (rows, changed) := by
    intro rs hrs
    induction rs with
    | nil => exact ⟨[], [], rfl⟩
    | cons r rs ih =>
      obtain ⟨rows, changed, ih⟩ := ih fun x hx => hrs x (List.mem_cons_of_mem _ hx)
      unfold change
      by_cases hpick : pick r = true
      · obtain ⟨r', hr'⟩ := hrs r List.mem_cons_self hpick
        rw [if_pos hpick, ih, hr']
        exact ⟨_, _, rfl⟩
      · rw [if_neg hpick, ih]
        exact ⟨_, _, rfl⟩
  obtain ⟨rows, changed, hok⟩ := hchange t.rows hf
  unfold update
  split
  · rename_i e herror
    rw [hok] at herror
    cases herror
  · exact ⟨_, _, rfl⟩

omit [DecidableEq κ] in
/-- An update that picks one row returns that row as it comes out. -/
theorem update_one {t : Table ρ κ key} {r r' : ρ}
    (hkey : ∀ r r', f r = .ok r' → key r' = key r) (hr : r ∈ t.rows)
    (hpick : ∀ x ∈ t.rows, pick x = true ↔ x = r) (hf : f r = .ok r') :
    ∃ t' more, t.update pick f hkey = .ok (t', r' :: more) ∧ r' ∈ t'.rows := by
  have hpicked : pick r = true := (hpick r hr).mpr rfl
  obtain ⟨t', changed, hupdate⟩ := t.update_ok pick hkey fun x hx hx' => by
    rw [(hpick x hx).mp hx']
    exact ⟨r', hf⟩
  obtain ⟨hrows, hchanged⟩ := update_eq_ok hupdate
  have hmem : r' ∈ t'.rows := by
    obtain ⟨x, hx, ⟨-, hfx⟩ | ⟨hnot, -⟩⟩ := change_mem hrows hr
    · rw [Except.ok.inj (hf.symm.trans hfx)]
      exact hx
    · exact absurd hpicked (by simp [hnot])
  cases changed with
  | nil => cases (hchanged r').mpr ⟨r, hr, hpicked, hf⟩
  | cons x more =>
    obtain ⟨y, hy, hy', hfy⟩ := (hchanged x).mp List.mem_cons_self
    rw [(hpick y hy).mp hy', hf] at hfy
    rw [← Except.ok.inj hfy] at hupdate
    exact ⟨t', more, hupdate, hmem⟩

omit [DecidableEq κ] in
/-- An update that picks no row returns none. -/
theorem update_none {t : Table ρ κ key} (hkey : ∀ r r', f r = .ok r' → key r' = key r)
    (hpick : ∀ x ∈ t.rows, pick x = false) : ∃ t', t.update pick f hkey = .ok (t', []) := by
  have hnot : ∀ x ∈ t.rows, pick x ≠ true := by
    intro x hx
    simp [hpick x hx]
  obtain ⟨t', changed, hupdate⟩ := t.update_ok pick hkey fun x hx hx' => absurd hx' (hnot x hx)
  have hnil : changed = [] := by
    apply List.eq_nil_iff_forall_not_mem.mpr
    intro x hx
    obtain ⟨r, hr, hpicked, -⟩ := ((update_eq_ok hupdate).2 x).mp hx
    exact hnot r hr hpicked
  exact ⟨t', hnil ▸ hupdate⟩

omit [DecidableEq κ] in
/-- A key has one row. -/
theorem eq_of_key_eq {t : Table ρ κ key} {r r' : ρ} (hr : r ∈ t.rows) (hr' : r' ∈ t.rows)
    (h : key r = key r') : r = r' :=
  List.inj_on_of_nodup_map t.unique hr hr' h

end Table

end tables
