-- Prefix stability tracking (chunker/stability.py). A prefix is stable once
-- the last `n` hypotheses all agree on it. The agreed length is the length of
-- the longest common prefix of the window.
import LadTranslate.ChunkerTypes
import LadTranslate.CommonPrefix
import LadTranslate.Dicts

open prefixes dicts

namespace lad_translate.phrase_chunker

/-- The portion of the transcript that the last n hypotheses agree on. -/
structure StablePrefix where
  tokens : List String
  first_seen_wall : ℚ
deriving DecidableEq, Repr

/-- Rolling LocalAgreement-n over incoming hypotheses. The window is a
`deque` with `maxlen` n. -/
structure StabilityTracker where
  n : Nat
  n_pos : 1 ≤ n
  window : List (List String)
  window_le : window.length ≤ n
  latest_surface : List String
  prefix_first_seen : Dict Nat ℚ
  committed : Nat
  contradicted : Bool

namespace StabilityTracker

/-- A tracker with nothing heard. -/
def fresh (n : Nat) (h : 1 ≤ n) : StabilityTracker where
  n := n
  n_pos := h
  window := []
  window_le := Nat.zero_le n
  latest_surface := []
  prefix_first_seen := ∅
  committed := 0
  contradicted := false

/-- The constructor, with its `ValueError`. -/
def new (agreement_n : Nat) : Except String StabilityTracker :=
  if h : 1 ≤ agreement_n then .ok (fresh agreement_n h)
  else .error "agreement_n must be at least 1"

/-- Length of the longest token prefix common to every hypothesis in the window. -/
def agreedLength (t : StabilityTracker) : Nat :=
  if t.window.length < t.n then 0
  else
    match t.window with
    | [] => 0
    | first :: rest =>
      let shortest := (rest.map List.length).foldl min first.length
      countAgreed (first :: rest) first shortest

/-- The agreed prefix beyond what has already been committed. -/
def stablePrefix (t : StabilityTracker) : Option StablePrefix :=
  let agreed := t.agreedLength
  if agreed ≤ t.committed then none
  else
    let stop := min agreed t.latest_surface.length
    if stop ≤ t.committed then none
    else
      let tokens := (t.latest_surface.take stop).drop t.committed
      if tokens.isEmpty then none
      else some { tokens, first_seen_wall := (t.prefix_first_seen.lookup agreed).getD 0 }

/-- Mark tokens as emitted. -/
def commit (t : StabilityTracker) (token_count : Nat) : StabilityTracker :=
  { t with committed := t.committed + token_count }

/-- Uncommitted surface tokens, stable or not. No caller in the source. -/
def pendingAfterCommit (t : StabilityTracker) : List String := t.latest_surface.drop t.committed

/-- The flag, and the tracker with the flag cleared. -/
def resetContradiction (t : StabilityTracker) : Bool × StabilityTracker :=
  (t.contradicted, { t with contradicted := false })

/-- `_window.append`: the oldest entry goes when the window is full. -/
def append (t : StabilityTracker) (x : List String) : StabilityTracker :=
  { t with
    window := (t.window ++ [x]).rtake t.n
    window_le := by simp only [List.rtake, List.length_drop]; omega }

/-- Only the first sighting of a length counts, so a prefix that stalls
accumulates lag. -/
def recordFirstSeen (t : StabilityTracker) (t_wall : ℚ) : StabilityTracker :=
  { t with prefix_first_seen := setdefault t.prefix_first_seen t.agreedLength t_wall }

/-- Check whether this hypothesis disagrees with already-committed tokens. -/
def detectContradiction (t : StabilityTracker) (normalised : List String) : StabilityTracker :=
  if t.committed = 0 then t
  else if normalised.length < t.committed then { t with contradicted := true }
  else
    let previous := t.window.getLast?.getD []
    if previous.length < t.committed then t
    else if normalised.take t.committed ≠ previous.take t.committed then
      { t with contradicted := true }
    else t

/-- Record a hypothesis. A final fills the window with copies of itself. -/
def add [Unicode] (t : StabilityTracker) (hyp : Hypothesis) : StabilityTracker :=
  let surface := tokenise hyp.text
  let normalised := surface.map normaliseToken
  let t := t.detectContradiction normalised
  let t := { t with latest_surface := surface }
  let t := if hyp.is_final then (List.replicate t.n normalised).foldl append t else t.append normalised
  t.recordFirstSeen hyp.t_wall

/-! ## The agreed prefix -/

/-- The prefix that every hypothesis of a full window shares. -/
def agreedPrefix (t : StabilityTracker) : List String :=
  if t.window.length < t.n then [] else commonPrefix t.window

theorem foldl_min_le (ls : List Nat) (a : Nat) : ls.foldl min a ≤ a ∧ ∀ b ∈ ls, ls.foldl min a ≤ b := by
  induction ls generalizing a with
  | nil => simp
  | cons l ls ih =>
    obtain ⟨h1, h2⟩ := ih (min a l)
    rw [List.foldl_cons]
    refine ⟨h1.trans (min_le_left a l), ?_⟩
    intro b hb
    rcases List.mem_cons.mp hb with rfl | hb
    · exact h1.trans (min_le_right a b)
    · exact h2 b hb

theorem foldl_min_mem (ls : List Nat) (a : Nat) : ls.foldl min a = a ∨ ls.foldl min a ∈ ls := by
  induction ls generalizing a with
  | nil => simp
  | cons l ls ih =>
    rw [List.foldl_cons]
    rcases ih (min a l) with h | h
    · rcases le_total a l with hal | hal
      · exact Or.inl (by rw [h, min_eq_left hal])
      · exact Or.inr (by rw [h, min_eq_right hal]; exact List.mem_cons_self)
    · exact Or.inr (List.mem_cons_of_mem _ h)

/-- The scan of the source counts the agreed prefix. -/
theorem agreedLength_eq (t : StabilityTracker) : t.agreedLength = t.agreedPrefix.length := by
  unfold agreedLength agreedPrefix
  split
  · rfl
  · split
    · rename_i hw
      rw [hw]
      rfl
    · rename_i first rest hw
      rw [hw]
      apply countAgreed_eq List.mem_cons_self
      · intro h hh
        obtain ⟨h1, h2⟩ := foldl_min_le (rest.map List.length) first.length
        rcases List.mem_cons.mp hh with rfl | hh
        · exact h1
        · exact h2 _ (List.mem_map_of_mem hh)
      · rcases foldl_min_mem (rest.map List.length) first.length with h | h
        · exact ⟨first, List.mem_cons_self, h.symm⟩
        · obtain ⟨x, hx, hl⟩ := List.mem_map.mp h
          exact ⟨x, List.mem_cons_of_mem _ hx, hl⟩

/-! ## What is outstanding -/

/-- The agreed words that are not committed yet, as the newest hypothesis
spells them. -/
def outstanding (t : StabilityTracker) : List String :=
  (t.latest_surface.take t.agreedLength).drop t.committed

/-- When the present agreed length was first seen. -/
def firstSeenWall (t : StabilityTracker) : ℚ := (t.prefix_first_seen.lookup t.agreedLength).getD 0

/-- The stable prefix is what is outstanding, when anything is. -/
theorem stablePrefix_eq (t : StabilityTracker) :
    t.stablePrefix =
      if t.outstanding = [] then none else some ⟨t.outstanding, t.firstSeenWall⟩ := by
  have hmin : t.latest_surface.take (min t.agreedLength t.latest_surface.length) =
      t.latest_surface.take t.agreedLength := List.take_eq_take_min.symm
  unfold stablePrefix
  simp only [hmin]
  by_cases h1 : t.agreedLength ≤ t.committed
  · have hnil : t.outstanding = [] := List.drop_eq_nil_of_le (by simp; omega)
    rw [if_pos h1, if_pos hnil]
  · rw [if_neg h1]
    by_cases h2 : min t.agreedLength t.latest_surface.length ≤ t.committed
    · have hnil : t.outstanding = [] := List.drop_eq_nil_of_le (by simpa using h2)
      rw [if_pos h2, if_pos hnil]
    · rw [if_neg h2]
      simp only [List.isEmpty_iff]
      rfl

theorem stablePrefix_eq_none {t : StabilityTracker} : t.stablePrefix = none ↔ t.outstanding = [] := by
  rw [stablePrefix_eq]
  split <;> simp_all

theorem stablePrefix_eq_some {t : StabilityTracker} {p : StablePrefix} :
    t.stablePrefix = some p ↔ t.outstanding ≠ [] ∧ p = ⟨t.outstanding, t.firstSeenWall⟩ := by
  rw [stablePrefix_eq]
  split
  · rename_i h
    simp [h]
  · rename_i h
    rw [Option.some.injEq]
    exact ⟨fun hp => ⟨h, hp.symm⟩, fun hp => hp.2.symm⟩

/-- Words in a row of the newest hypothesis: the first outstanding words stand
right after the committed ones. -/
theorem outstanding_take (t : StabilityTracker) (k : Nat) (hk : k ≤ t.outstanding.length) :
    t.outstanding.take k = (t.latest_surface.drop t.committed).take k := by
  unfold outstanding at hk ⊢
  rw [List.drop_take, List.take_take]
  congr 1
  rw [List.length_drop, List.length_take] at hk
  omega

theorem outstanding_commit (t : StabilityTracker) (k : Nat) :
    (t.commit k).outstanding = t.outstanding.drop k := by
  simp only [outstanding, commit, List.drop_drop]
  rfl

theorem outstanding_length (t : StabilityTracker) :
    t.outstanding.length = min t.agreedLength t.latest_surface.length - t.committed := by
  simp [outstanding]

/-- Something is outstanding only while the window is full. -/
theorem window_full {t : StabilityTracker} (h : t.outstanding ≠ []) : t.window.length = t.n := by
  have hle := t.window_le
  by_contra hne
  apply h
  have hagreed : t.agreedLength = 0 := by
    unfold agreedLength
    rw [if_pos (by omega)]
  rw [outstanding, hagreed, List.take_zero, List.drop_nil]

/-- Every entry of the window has the same word at each agreed position. -/
theorem agreed_at {t : StabilityTracker} {i : Nat} (h : i < t.agreedLength) :
    ∃ w, ∀ x ∈ t.window, x[i]? = some w := by
  rw [agreedLength_eq] at h
  refine ⟨t.agreedPrefix[i], ?_⟩
  intro x hx
  have hpre : t.agreedPrefix <+: x := by
    unfold agreedPrefix
    split
    · exact List.nil_prefix
    · exact commonPrefix_isPrefix hx
  exact List.prefix_iff_getElem?.mp hpre i h

/-! ## A hypothesis recorded -/

theorem rtake_append_rtake {α : Type*} (l xs : List α) (n : Nat) :
    (l.rtake n ++ xs).rtake n = (l ++ xs).rtake n := by
  simp only [List.rtake_eq_reverse_take_reverse, List.reverse_append, List.reverse_reverse,
    List.take_append, List.take_take]
  congr 3
  omega

theorem rtake_window (t : StabilityTracker) : t.window.rtake t.n = t.window := by
  have := t.window_le
  rw [List.rtake, Nat.sub_eq_zero_of_le this, List.drop_zero]

@[simp] theorem append_n (t : StabilityTracker) (x : List String) : (t.append x).n = t.n := rfl

theorem foldl_append_eq (xs : List (List String)) (t : StabilityTracker) :
    (xs.foldl append t) = { t with
      window := (t.window ++ xs).rtake t.n
      window_le := by simp only [List.rtake, List.length_drop]; omega } := by
  induction xs generalizing t with
  | nil => simp [rtake_window]
  | cons x xs ih =>
    rw [List.foldl_cons, ih]
    simp [append, rtake_append_rtake]

/-- What `detectContradiction` looks for. -/
def disagrees (t : StabilityTracker) (normalised : List String) : Bool :=
  let previous := t.window.getLast?.getD []
  decide (t.committed ≠ 0 ∧ (normalised.length < t.committed ∨
    (t.committed ≤ previous.length ∧ normalised.take t.committed ≠ previous.take t.committed)))

theorem detectContradiction_eq (t : StabilityTracker) (x : List String) :
    t.detectContradiction x = { t with contradicted := t.contradicted || t.disagrees x } := by
  unfold detectContradiction disagrees
  simp only
  split_ifs with h1 h2 h3 h4
  · rw [decide_eq_false (by simp [h1]), Bool.or_false]
  · simp [h1, h2]
  · have h3' : ¬ t.committed ≤ (t.window.getLast?.getD []).length := by omega
    simp [h2, h3']
  · simp [h1, h4, Nat.le_of_not_lt h3]
  · simp at h4
    simp [h2, h4]

variable [Unicode]

/-- The entries that a hypothesis adds to the window: a final counts as n
copies of itself. -/
def entriesOf (n : Nat) (hyp : Hypothesis) : List (List String) :=
  if hyp.is_final then List.replicate n (normalised hyp.text) else [normalised hyp.text]

theorem entriesOf_getLast (n : Nat) (hn : 1 ≤ n) (hyp : Hypothesis) :
    (entriesOf n hyp).getLast? = some (normalised hyp.text) := by
  obtain ⟨m, rfl⟩ := Nat.exists_eq_add_of_le' hn
  unfold entriesOf
  split
  · rw [List.getLast?_replicate]
    simp
  · rfl

/-- What recording a hypothesis does, up to the first-seen times. -/
theorem add_eq (t : StabilityTracker) (hyp : Hypothesis) :
    t.add hyp = recordFirstSeen { t with
      window := (t.window ++ entriesOf t.n hyp).rtake t.n
      window_le := by simp only [List.rtake, List.length_drop]; omega
      latest_surface := tokenise hyp.text
      contradicted := t.contradicted || t.disagrees (normalised hyp.text) } hyp.t_wall := by
  unfold add entriesOf
  simp only [detectContradiction_eq]
  split
  · rw [foldl_append_eq]
    rfl
  · rfl

@[simp] theorem add_n (t : StabilityTracker) (hyp : Hypothesis) : (t.add hyp).n = t.n := by
  rw [add_eq]
  rfl

theorem add_window (t : StabilityTracker) (hyp : Hypothesis) :
    (t.add hyp).window = (t.window ++ entriesOf t.n hyp).rtake t.n := by
  rw [add_eq]
  rfl

@[simp] theorem add_latest_surface (t : StabilityTracker) (hyp : Hypothesis) :
    (t.add hyp).latest_surface = tokenise hyp.text := by
  rw [add_eq]
  rfl

@[simp] theorem add_committed (t : StabilityTracker) (hyp : Hypothesis) :
    (t.add hyp).committed = t.committed := by
  rw [add_eq]
  rfl

@[simp] theorem add_contradicted (t : StabilityTracker) (hyp : Hypothesis) :
    (t.add hyp).contradicted = (t.contradicted || t.disagrees (normalised hyp.text)) := by
  rw [add_eq]
  rfl

theorem add_prefix_first_seen (t : StabilityTracker) (hyp : Hypothesis) :
    (t.add hyp).prefix_first_seen =
      setdefault t.prefix_first_seen (t.add hyp).agreedLength hyp.t_wall := by
  rw [add_eq]
  rfl

/-- The newest entry of the window is the newest hypothesis. -/
theorem add_newest (t : StabilityTracker) (hyp : Hypothesis) :
    (t.add hyp).window.getLast? = some (normalised hyp.text) := by
  obtain ⟨ys, hys⟩ := List.getLast?_eq_some_iff.mp (entriesOf_getLast t.n t.n_pos hyp)
  obtain ⟨m, hm⟩ := Nat.exists_eq_add_of_le' t.n_pos
  rw [add_window, hys, hm, ← List.append_assoc, List.rtake_concat_succ, List.getLast?_concat]

/-- A final fills the window, so all of it is agreed. -/
theorem add_final_agreedPrefix (t : StabilityTracker) (hyp : Hypothesis) (h : hyp.is_final) :
    (t.add hyp).agreedPrefix = normalised hyp.text := by
  obtain ⟨m, hm⟩ := Nat.exists_eq_add_of_le' t.n_pos
  have hw : (t.add hyp).window = List.replicate t.n (normalised hyp.text) := by
    rw [add_window, entriesOf, if_pos h, List.rtake]
    simp
  unfold agreedPrefix
  rw [add_n, hw, List.length_replicate, if_neg (lt_irrefl _), hm, commonPrefix_replicate]

end StabilityTracker

end lad_translate.phrase_chunker
