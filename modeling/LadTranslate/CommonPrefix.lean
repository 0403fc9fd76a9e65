-- The longest common prefix of a list of lists. It is the greatest list
-- that is a prefix of each of them, so every question about a shared
-- prefix is a question about `<+:`.
import Mathlib

namespace prefixes

variable {α : Type*} [DecidableEq α]

/-- The longest common prefix of two lists. -/
def common : List α → List α → List α
  | a :: as, b :: bs => if a = b then a :: common as bs else []
  | _, _ => []

theorem prefix_common_iff {p a b : List α} : p <+: common a b ↔ p <+: a ∧ p <+: b := by
  fun_induction common a b generalizing p with
  | case1 x as bs ih =>
    cases p with
    | nil => simp
    | cons y p =>
      simp only [List.cons_prefix_cons, ih]
      tauto
  | case2 x as y bs hxy =>
    cases p with
    | nil => simp
    | cons z p =>
      simp only [List.prefix_nil, reduceCtorEq, List.cons_prefix_cons, false_iff]
      rintro ⟨⟨rfl, _⟩, rfl, _⟩
      exact hxy rfl
  | case3 a b hab =>
    constructor
    · intro h
      rw [List.prefix_nil.mp h]
      simp
    · rintro ⟨ha, hb⟩
      cases p with
      | nil => simp
      | cons z p =>
        obtain ⟨ta, rfl⟩ := ha
        obtain ⟨tb, rfl⟩ := hb
        exact (hab z (p ++ ta) z (p ++ tb) rfl rfl).elim

/-- The longest common prefix of every list of a list, and `[]` for none. -/
def commonPrefix : List (List α) → List α
  | [] => []
  | h :: t => t.foldl common h

theorem prefix_foldl_common_iff {p : List α} (t : List (List α)) (h : List α) :
    p <+: t.foldl common h ↔ p <+: h ∧ ∀ x ∈ t, p <+: x := by
  induction t generalizing h with
  | nil => simp
  | cons x t ih =>
    rw [List.foldl_cons, ih, prefix_common_iff]
    simp only [List.mem_cons, forall_eq_or_imp]
    tauto

/-- The common prefix is the greatest prefix of every list. -/
theorem prefix_commonPrefix_iff {w : List (List α)} (hw : w ≠ []) {p : List α} :
    p <+: commonPrefix w ↔ ∀ x ∈ w, p <+: x := by
  cases w with
  | nil => exact absurd rfl hw
  | cons h t =>
    rw [commonPrefix, prefix_foldl_common_iff]
    simp

theorem commonPrefix_isPrefix {w : List (List α)} {x : List α} (hx : x ∈ w) :
    commonPrefix w <+: x :=
  (prefix_commonPrefix_iff (List.ne_nil_of_mem hx)).mp (List.prefix_refl _) x hx

/-- Two different singletons share nothing. -/
theorem commonPrefix_eq_nil {w : List (List α)} {a b : α} (ha : [a] ∈ w) (hb : [b] ∈ w)
    (hne : a ≠ b) : commonPrefix w = [] := by
  have hfirst := commonPrefix_isPrefix ha
  have hsecond := commonPrefix_isPrefix hb
  cases hshared : commonPrefix w with
  | nil => rfl
  | cons x shared =>
    rw [hshared, List.cons_prefix_cons] at hfirst hsecond
    exact absurd (hfirst.1.symm.trans hsecond.1) hne

omit [DecidableEq α] in
/-- Two lists with the same prefixes are equal. -/
theorem eq_of_same_prefixes {a b : List α} (h : ∀ p, p <+: a ↔ p <+: b) : a = b :=
  ((h a).mp (List.prefix_refl a)).eq_of_length_le
    ((h b).mpr (List.prefix_refl b)).length_le

theorem commonPrefix_replicate (n : Nat) (x : List α) :
    commonPrefix (List.replicate (n + 1) x) = x := by
  apply eq_of_same_prefixes
  intro p
  rw [prefix_commonPrefix_iff (by simp)]
  simp [List.mem_replicate]

/-- The common prefix is all of `x` when `x` is a prefix of every list. -/
theorem length_le_commonPrefix_iff {w : List (List α)} {x : List α} (hx : x ∈ w) :
    x.length ≤ (commonPrefix w).length ↔ ∀ y ∈ w, x <+: y := by
  rw [← prefix_commonPrefix_iff (List.ne_nil_of_mem hx)]
  constructor
  · intro h
    rw [(commonPrefix_isPrefix hx).eq_of_length_le h]
  · exact List.IsPrefix.length_le

/-! ## The scan that counts positions

A program counts how far the lists agree: it walks over the positions of
the shortest list, and stops at the first one where some list differs from
the head list. -/

/-- Every list holds the same element as the first one at position `i`. -/
def agreeAt (w : List (List α)) (first : List α) (i : Nat) : Bool :=
  w.all fun h => decide (h[i]? = first[i]?)

/-- The walk over the first `k` positions, and the number it counts. -/
def countAgreed (w : List (List α)) (first : List α) (k : Nat) : Nat :=
  ((List.range k).takeWhile (agreeAt w first)).length

theorem lt_length_takeWhile_range {p : Nat → Bool} {k i : Nat} :
    i < ((List.range k).takeWhile p).length ↔ i < k ∧ ∀ j ≤ i, p j = true := by
  induction k with
  | zero => simp
  | succ k ih =>
    rw [List.range_succ]
    by_cases hall : ∀ j < k, p j = true
    · have hfull : (List.range k).takeWhile p = List.range k := by
        rw [List.takeWhile_eq_self_iff]
        simpa using hall
      rw [List.takeWhile_append_of_pos (by simpa using hall), List.length_append,
        List.length_range]
      by_cases hk : p k = true
      · simp only [List.takeWhile_cons_of_pos hk, List.takeWhile_nil, List.length_singleton]
        constructor
        · intro h
          refine ⟨h, ?_⟩
          intro j hj
          rcases Nat.lt_or_ge j k with hjk | hjk
          · exact hall j hjk
          · have : j = k := by omega
            exact this ▸ hk
        · exact fun h => h.1
      · rw [List.takeWhile_cons_of_neg hk, List.length_nil]
        constructor
        · intro h
          exact ⟨by omega, fun j hj => hall j (by omega)⟩
        · rintro ⟨h1, h2⟩
          have : i ≠ k := fun h => hk (h ▸ h2 i le_rfl)
          omega
    · push Not at hall
      obtain ⟨j, hj, hpj⟩ := hall
      have hstop : (List.range k ++ [k]).takeWhile p = (List.range k).takeWhile p := by
        rw [List.takeWhile_append, if_neg]
        intro h
        have hself := List.takeWhile_eq_self_iff.mp
          ((List.takeWhile_prefix p).eq_of_length h) j (by simpa using hj)
        exact hpj hself
      rw [hstop, ih]
      constructor
      · exact fun h => ⟨by omega, h.2⟩
      · rintro ⟨_, h2⟩
        refine ⟨?_, h2⟩
        by_contra hge
        exact hpj (h2 j (by omega))

/-- The walk over the positions of the shortest list counts the length of
the common prefix. -/
theorem countAgreed_eq {w : List (List α)} {first : List α} {k : Nat} (hf : first ∈ w)
    (hk : ∀ h ∈ w, k ≤ h.length) (hmin : ∃ h ∈ w, h.length = k) :
    countAgreed w first k = (commonPrefix w).length := by
  have key : ∀ i, i < countAgreed w first k ↔ i < (commonPrefix w).length := by
    intro i
    unfold countAgreed
    rw [lt_length_takeWhile_range]
    constructor
    · rintro ⟨hik, hag⟩
      have hlen : (first.take (i + 1)).length = i + 1 := by
        have := hk first hf
        simp; omega
      have hpre : first.take (i + 1) <+: commonPrefix w := by
        rw [prefix_commonPrefix_iff (List.ne_nil_of_mem hf)]
        intro h hh
        rw [List.prefix_iff_getElem?]
        intro j hj
        rw [hlen] at hj
        have hagj := hag j (by omega)
        simp only [agreeAt, List.all_eq_true, decide_eq_true_eq] at hagj
        rw [hagj h hh, List.getElem_take, List.getElem?_eq_getElem]
      have := hpre.length_le
      omega
    · intro hi
      have hpre : ∀ h ∈ w, ∀ j ≤ i, h[j]? = (commonPrefix w)[j]? := by
        intro h hh j hj
        have hp := commonPrefix_isPrefix hh
        rw [List.prefix_iff_getElem?] at hp
        rw [hp j (by omega), List.getElem?_eq_getElem]
      obtain ⟨h, hh, hhk⟩ := hmin
      refine ⟨hhk ▸ lt_of_lt_of_le hi (commonPrefix_isPrefix hh).length_le, ?_⟩
      intro j hj
      simp only [agreeAt, List.all_eq_true, decide_eq_true_eq]
      intro x hx
      rw [hpre x hx j hj, hpre first hf j hj]
  exact le_antisymm (le_of_forall_lt fun c hc => (key c).mp hc)
    (le_of_forall_lt fun c hc => (key c).mpr hc)

end prefixes
