-- The law of the cut (chunker/clause.py): `find_boundary` takes the latest mark
-- that leaves enough words before it, else the latest conjunction, else nothing.
-- Each walk goes down from the end, so the first cut it meets is the greatest.
import LadTranslate.Clause

namespace lad_translate.phrase_chunker

section

variable [Unicode]

/-- A medium or a strong boundary after the token. -/
def Marks (token : String) : Prop :=
  BoundaryStrength.medium.value ≤ (tokenBoundaryStrength token).value

/-- A cut right after a marked token, with enough words before it. -/
structure MarkCut (tokens : List String) (min_words stop : Nat) : Prop where
  floor : min_words ≤ stop
  inside : stop ≤ tokens.length
  marked : ∃ token, tokens[stop - 1]? = some token ∧ Marks token

/-- A cut right before a conjunction, with enough words before it. -/
structure ConjunctionCut (tokens : List String) (min_words stop : Nat) : Prop where
  floor : min_words ≤ stop
  inside : stop < tokens.length
  opens : ∃ token, tokens[stop]? = some token ∧ isConjunction token = true

variable {tokens : List String} {min_words i : Nat}

omit [Unicode] in
theorem getElem?_eq_getD (hi : i < tokens.length) : tokens[i]? = some (tokens.getD i "") := by
  rw [List.getD_eq_getElem tokens "" hi, List.getElem?_eq_getElem hi]

/-! ## The walk for a mark -/

/-- A position whose token has no mark is no cut. -/
theorem MarkCut.below {stop : Nat} (h : MarkCut tokens min_words stop) (hi : i < tokens.length)
    (hmark : ¬ Marks (tokens.getD i "")) (hle : stop ≤ i + 1) : stop ≤ i := by
  by_contra hlt
  obtain rfl : stop = i + 1 := by omega
  obtain ⟨token, htoken, hmarked⟩ := h.marked
  rw [Nat.add_sub_cancel, getElem?_eq_getD hi, Option.some.injEq] at htoken
  exact hmark (htoken ▸ hmarked)

theorem latestMark_eq_some {cut : Nat × BoundaryStrength} (hi : i ≤ tokens.length)
    (h : latestMark tokens min_words i = some cut) :
    IsGreatest {stop | MarkCut tokens min_words stop ∧ stop ≤ i} cut.1 ∧
      tokens[cut.1 - 1]?.map tokenBoundaryStrength = some cut.2 := by
  induction i with
  | zero => cases h
  | succ i ih =>
    simp only [latestMark] at h
    split_ifs at h with hfloor hmark
    · cases h
      have htoken := getElem?_eq_getD hi
      refine ⟨⟨⟨⟨by omega, hi, _, htoken, hmark⟩, le_rfl⟩, fun stop hstop => hstop.2⟩, ?_⟩
      rw [Nat.add_sub_cancel, htoken]
      rfl
    · obtain ⟨⟨hcut, hlatest⟩, hstrength⟩ := ih (by omega) h
      refine ⟨⟨⟨hcut.1, by have := hcut.2; omega⟩, ?_⟩, hstrength⟩
      rintro stop ⟨hstop, hle⟩
      exact hlatest ⟨hstop, hstop.below hi hmark hle⟩

theorem latestMark_eq_none (hmin : 1 ≤ min_words) (hi : i ≤ tokens.length)
    (h : latestMark tokens min_words i = none) {stop : Nat} (hle : stop ≤ i) :
    ¬ MarkCut tokens min_words stop := by
  induction i with
  | zero =>
    intro hstop
    have := hstop.floor
    omega
  | succ i ih =>
    intro hstop
    simp only [latestMark] at h
    split_ifs at h with hfloor hmark
    · have := hstop.floor
      omega
    · exact ih (by omega) h (hstop.below hi hmark hle) hstop

/-! ## The walk for a conjunction -/

theorem ConjunctionCut.below {stop : Nat} (h : ConjunctionCut tokens min_words stop)
    (hi : i < tokens.length) (hnot : ¬ isConjunction (tokens.getD i "") = true)
    (hlt : stop < i + 1) : stop < i := by
  by_contra hge
  obtain rfl : stop = i := by omega
  obtain ⟨token, htoken, hopens⟩ := h.opens
  rw [getElem?_eq_getD hi, Option.some.injEq] at htoken
  exact hnot (htoken ▸ hopens)

theorem latestConjunction_eq_some {cut : Nat} (hi : i ≤ tokens.length)
    (h : latestConjunction tokens min_words i = some cut) :
    IsGreatest {stop | ConjunctionCut tokens min_words stop ∧ stop < i} cut := by
  induction i with
  | zero => cases h
  | succ i ih =>
    simp only [latestConjunction] at h
    split_ifs at h with hfloor hopens
    · cases h
      refine ⟨⟨⟨by omega, hi, _, getElem?_eq_getD hi, hopens⟩, Nat.lt_succ_self _⟩, ?_⟩
      rintro stop ⟨-, hlt⟩
      exact Nat.le_of_lt_succ hlt
    · obtain ⟨hcut, hlatest⟩ := ih (by omega) h
      refine ⟨⟨hcut.1, by have := hcut.2; omega⟩, ?_⟩
      rintro stop ⟨hstop, hlt⟩
      exact hlatest ⟨hstop, hstop.below hi hopens hlt⟩

theorem latestConjunction_eq_none (hi : i ≤ tokens.length)
    (h : latestConjunction tokens min_words i = none) {stop : Nat} (hlt : stop < i) :
    ¬ ConjunctionCut tokens min_words stop := by
  induction i with
  | zero => omega
  | succ i ih =>
    intro hstop
    simp only [latestConjunction] at h
    split_ifs at h with hfloor hopens
    · have := hstop.floor
      omega
    · exact ih (by omega) h (hstop.below hi hopens hlt) hstop

/-! ## The cut -/

/-- The latest mark, if there is one. -/
theorem findBoundary_mark (hmin : 1 ≤ min_words) (allow_weak : Bool)
    (h : ∃ stop, MarkCut tokens min_words stop) :
    IsGreatest {stop | MarkCut tokens min_words stop} (findBoundary tokens min_words allow_weak).1 ∧
      tokens[(findBoundary tokens min_words allow_weak).1 - 1]?.map tokenBoundaryStrength =
        some (findBoundary tokens min_words allow_weak).2 := by
  obtain ⟨stop, hstop⟩ := h
  have hlong := hstop.floor.trans hstop.inside
  cases hwalk : latestMark tokens min_words tokens.length with
  | none => exact absurd hstop (latestMark_eq_none hmin le_rfl hwalk hstop.inside)
  | some cut =>
    have hcut : findBoundary tokens min_words allow_weak = cut := by
      rw [findBoundary, if_neg (by omega), hwalk]
    obtain ⟨⟨hmem, hlatest⟩, hstrength⟩ := latestMark_eq_some le_rfl hwalk
    rw [hcut]
    exact ⟨⟨hmem.1, fun stop hstop => hlatest ⟨hstop, hstop.inside⟩⟩, hstrength⟩

theorem latestMark_none_of_no_mark (h : ∀ stop, ¬ MarkCut tokens min_words stop) :
    latestMark tokens min_words tokens.length = none := by
  cases hwalk : latestMark tokens min_words tokens.length with
  | none => rfl
  | some cut => exact absurd (latestMark_eq_some le_rfl hwalk).1.1.1 (h cut.1)

/-- The latest conjunction, where there is no mark and weak cuts are allowed. -/
theorem findBoundary_weak (hno : ∀ stop, ¬ MarkCut tokens min_words stop)
    (h : ∃ stop, ConjunctionCut tokens min_words stop) :
    IsGreatest {stop | ConjunctionCut tokens min_words stop} (findBoundary tokens min_words true).1 ∧
      (findBoundary tokens min_words true).2 = .weak := by
  obtain ⟨stop, hstop⟩ := h
  have hlong := hstop.floor.trans hstop.inside.le
  cases hwalk : latestConjunction tokens min_words tokens.length with
  | none => exact absurd hstop (latestConjunction_eq_none le_rfl hwalk hstop.inside)
  | some cut =>
    have hcut : findBoundary tokens min_words true = (cut, .weak) := by
      rw [findBoundary, if_neg (by omega), latestMark_none_of_no_mark hno]
      simp [hwalk]
    obtain ⟨hmem, hlatest⟩ := latestConjunction_eq_some le_rfl hwalk
    rw [hcut]
    exact ⟨⟨hmem.1, fun stop hstop => hlatest ⟨hstop, hstop.inside⟩⟩, rfl⟩

/-- Nothing, where there is no cut. -/
theorem findBoundary_none {allow_weak : Bool} (hno : ∀ stop, ¬ MarkCut tokens min_words stop)
    (h : allow_weak = true → ∀ stop, ¬ ConjunctionCut tokens min_words stop) :
    findBoundary tokens min_words allow_weak = (0, .none) := by
  unfold findBoundary
  rw [latestMark_none_of_no_mark hno]
  cases allow_weak with
  | false => simp
  | true =>
    have hwalk : latestConjunction tokens min_words tokens.length = none := by
      cases hwalk : latestConjunction tokens min_words tokens.length with
      | none => rfl
      | some cut => exact absurd (latestConjunction_eq_some le_rfl hwalk).1.1 (h rfl cut)
    simp [hwalk]

/-- A weak cut leaves its conjunction at the head of the remainder. -/
theorem findBoundary_opens (hmin : 1 ≤ min_words) {allow_weak : Bool}
    (h : (findBoundary tokens min_words allow_weak).2 = .weak) :
    ∃ token, (tokens.drop (findBoundary tokens min_words allow_weak).1).head? = some token ∧
      isConjunction token = true := by
  by_cases hmark : ∃ stop, MarkCut tokens min_words stop
  · -- a mark is never weak
    obtain ⟨⟨hcut, -⟩, hstrength⟩ := findBoundary_mark hmin allow_weak hmark
    obtain ⟨token, htoken, hmarks⟩ := hcut.marked
    rw [htoken, Option.map_some, h, Option.some.injEq] at hstrength
    rw [Marks, hstrength] at hmarks
    exact absurd hmarks (by decide)
  · have hno := not_exists.mp hmark
    by_cases hweak : allow_weak = true ∧ ∃ stop, ConjunctionCut tokens min_words stop
    · obtain ⟨rfl, hconjunction⟩ := hweak
      obtain ⟨token, htoken, hopens⟩ := (findBoundary_weak hno hconjunction).1.1.opens
      exact ⟨token, by rw [List.head?_drop, htoken], hopens⟩
    · rw [findBoundary_none hno fun hallow => not_exists.mp fun hex => hweak ⟨hallow, hex⟩] at h
      cases h

/-- The cut is the latest mark; where there is none, and weak cuts are allowed, the
latest conjunction; else 0. It leaves enough words before it, and a weak one has
its conjunction right after it. -/
structure LatestCut (tokens : List String) (min_words : Nat) (allow_weak : Bool)
    (cut : Nat × BoundaryStrength) : Prop where
  marked : (∃ stop, MarkCut tokens min_words stop) →
    IsGreatest {stop | MarkCut tokens min_words stop} cut.1 ∧
      tokens[cut.1 - 1]?.map tokenBoundaryStrength = some cut.2
  weak : (∀ stop, ¬ MarkCut tokens min_words stop) → allow_weak = true →
    (∃ stop, ConjunctionCut tokens min_words stop) →
    IsGreatest {stop | ConjunctionCut tokens min_words stop} cut.1 ∧ cut.2 = .weak
  nothing : (∀ stop, ¬ MarkCut tokens min_words stop) →
    (allow_weak = true → ∀ stop, ¬ ConjunctionCut tokens min_words stop) → cut = (0, .none)
  bounds : cut.1 = 0 ∨ min_words ≤ cut.1 ∧ cut.1 ≤ tokens.length
  opens : cut.2 = .weak →
    ∃ token, (tokens.drop cut.1).head? = some token ∧ isConjunction token = true

theorem the_cut_is_the_latest (tokens : List String) {min_words : Nat} (hmin : 1 ≤ min_words)
    (allow_weak : Bool) :
    LatestCut tokens min_words allow_weak (findBoundary tokens min_words allow_weak) := by
  refine ⟨findBoundary_mark hmin allow_weak, ?_, findBoundary_none, ?_, findBoundary_opens hmin⟩
  · rintro hno rfl hconjunction
    exact findBoundary_weak hno hconjunction
  · rcases le_findBoundary tokens min_words allow_weak with hzero | hfloor
    · exact .inl hzero
    · exact .inr ⟨hfloor, findBoundary_le tokens min_words allow_weak⟩

end

/-- A line that nothing but a conjunction divides. -/
def twoClauses : List String :=
  ["we", "looked", "at", "the", "numbers", "and", "they", "were", "encouraging"]

open ascii in
/-- The words before "and" make up a chunk, and "and" opens the next. -/
theorem the_cut_is_the_latest_before_and :
    ∃ token, (twoClauses.drop (findBoundary twoClauses 4 true).1).head? = some token ∧
      isConjunction token = true :=
  (the_cut_is_the_latest twoClauses (show 1 ≤ 4 by decide) true).opens (by decide +kernel)

end lad_translate.phrase_chunker
