-- The laws of the percentiles (obs/latency.py). A percentile is a sorted copy of
-- the samples, interpolated at a rank between its ends, so it rises with the
-- percentage and with it the figures of a language.
import LadTranslate.Interpolation
import LadTranslate.Latency

open interpolation

namespace lad_translate.latency

/-- `percentile`, where an index outside of the list gives none. -/
def checkedPercentile (values : List ℚ) (pct : ℚ) : Option ℚ :=
  if values = [] then some 0
  else do
    let ordered := values.mergeSort
    let k := (ordered.length - 1 : ℚ) * pct
    let lo := ⌊k⌋.toNat
    let hi := min (lo + 1) (ordered.length - 1)
    let low ← ordered[lo]?
    let high ← ordered[hi]?
    return low + (high - low) * (k - lo)

variable {values : List ℚ} {p q : ℚ}

/-- The place of a percentile in the sorted samples. -/
def rank (values : List ℚ) (pct : ℚ) : ℚ := (values.length - 1 : ℚ) * pct

theorem last_nonneg (hne : values ≠ []) : (0 : ℚ) ≤ values.length - 1 := by
  have hpos : (1 : ℚ) ≤ values.length := by exact_mod_cast List.length_pos_iff.mpr hne
  linarith

theorem rank_mono (hne : values ≠ []) : Monotone (rank values) := by
  intro p q hpq
  exact mul_le_mul_of_nonneg_left hpq (last_nonneg hne)

/-- The lower rank is a place of the list. -/
theorem floor_rank_lt (hne : values ≠ []) (hp : p ≤ 1) : ⌊rank values p⌋₊ < values.length := by
  have hpos := List.length_pos_iff.mpr hne
  have hle : rank values p ≤ (values.length - 1 : ℕ) := by
    rw [Nat.cast_sub hpos, Nat.cast_one]
    exact mul_le_of_le_one_right (last_nonneg hne) hp
  have hfloor := Nat.floor_le_of_le hle
  omega

/-- Up to 1, a percentile is the sorted samples interpolated at its rank. -/
theorem percentile_eq (hne : values ≠ []) (hp : p ≤ 1) :
    percentile values p = interpolate (clamped values.mergeSort) (rank values p) := by
  have hlo := floor_rank_lt hne hp
  have hsame : ⌊rank values p⌋₊ = min ⌊rank values p⌋₊ (values.mergeSort.length - 1) := by
    rw [List.length_mergeSort]
    omega
  unfold percentile
  simp only [if_neg hne, Int.floor_toNat]
  rw [interpolate, clamped, clamped, ← hsame, List.length_mergeSort]
  rfl

/-- Up to 1, no index is outside of the list. -/
theorem checkedPercentile_eq (values : List ℚ) (hp : p ≤ 1) :
    checkedPercentile values p = some (percentile values p) := by
  by_cases hne : values = []
  · simp [checkedPercentile, percentile, hne]
  · have hlo := floor_rank_lt hne hp
    have hlow : ⌊rank values p⌋₊ < values.mergeSort.length := by rwa [List.length_mergeSort]
    have hhigh : min (⌊rank values p⌋₊ + 1) (values.length - 1) < values.mergeSort.length := by
      rw [List.length_mergeSort]
      omega
    unfold checkedPercentile percentile
    simp only [if_neg hne, Int.floor_toNat, List.length_mergeSort]
    unfold rank at hlow hhigh
    rw [List.getElem?_eq_getElem hlow, List.getElem?_eq_getElem hhigh,
      List.getD_eq_getElem _ 0 hlow, List.getD_eq_getElem _ 0 hhigh]
    rfl

/-! ## The order of the samples -/

theorem sorted_samples (values : List ℚ) : values.mergeSort.SortedLE := List.sortedLE_mergeSort

/-- A percentile is a matter of the samples, not of their order. -/
theorem percentile_perm {values' : List ℚ} (h : values'.Perm values) (pct : ℚ) :
    percentile values' pct = percentile values pct := by
  have hperm : values'.mergeSort.Perm values.mergeSort :=
    (List.mergeSort_perm values' _).trans (h.trans (List.mergeSort_perm values _).symm)
  have hsorted := hperm.eq_of_sortedLE (sorted_samples values') (sorted_samples values)
  have hnil : values' = [] ↔ values = [] := by
    rw [← List.length_eq_zero_iff, h.length_eq, List.length_eq_zero_iff]
  unfold percentile
  simp only [hsorted, hnil]

theorem percentile_mono (values : List ℚ) (hpq : p ≤ q) (hq : q ≤ 1) :
    percentile values p ≤ percentile values q := by
  by_cases hne : values = []
  · simp [percentile, hne]
  · rw [percentile_eq hne (hpq.trans hq), percentile_eq hne hq]
    exact interpolate_mono (clamped_mono (sorted_samples values)) (rank_mono hne hpq)

/-- At a place of the list, the percentile is the sample there. -/
theorem percentile_at (hne : values ≠ []) (hp : p ≤ 1) {i : ℕ} (hi : i < values.mergeSort.length)
    (hrank : rank values p = i) : percentile values p = values.mergeSort[i] := by
  rw [percentile_eq hne hp, hrank, interpolate_natCast, clamped_eq hi]

theorem percentile_zero (hne : values ≠ []) : IsLeast {v | v ∈ values} (percentile values 0) := by
  have hpos : 0 < values.mergeSort.length := by
    rw [List.length_mergeSort]
    exact List.length_pos_iff.mpr hne
  rw [percentile_at hne zero_le_one hpos (by simp [rank])]
  refine ⟨List.mem_mergeSort.mp (List.getElem_mem hpos), ?_⟩
  intro v hv
  have hsorted : v ∈ values.mergeSort := List.mem_mergeSort.mpr hv
  obtain ⟨i, hi, rfl⟩ := List.mem_iff_getElem.mp hsorted
  exact (sorted_samples values).getElem_le_getElem_of_le (Nat.zero_le i)

theorem percentile_one (hne : values ≠ []) : IsGreatest {v | v ∈ values} (percentile values 1) := by
  have hpos := List.length_pos_iff.mpr hne
  have hlast : values.length - 1 < values.mergeSort.length := by
    rw [List.length_mergeSort]
    omega
  have hrank : rank values 1 = (values.length - 1 : ℕ) := by
    rw [rank, mul_one, Nat.cast_sub hpos, Nat.cast_one]
  rw [percentile_at hne le_rfl hlast hrank]
  refine ⟨List.mem_mergeSort.mp (List.getElem_mem hlast), ?_⟩
  intro v hv
  have hsorted : v ∈ values.mergeSort := List.mem_mergeSort.mpr hv
  obtain ⟨i, hi, rfl⟩ := List.mem_iff_getElem.mp hsorted
  apply (sorted_samples values).getElem_le_getElem_of_le
  rw [List.length_mergeSort] at hi
  omega

/-! ## The figures of a language -/

theorem le_foldl_max {l : List ℚ} {a v : ℚ} (h : v ≤ a ∨ v ∈ l) : v ≤ l.foldl max a := by
  induction l generalizing a with
  | nil => simpa using h
  | cons x l ih =>
    apply ih
    rcases h with hle | hmem
    · exact .inl (hle.trans (le_max_left a x))
    · rcases List.mem_cons.mp hmem with rfl | hmem
      · exact .inl (le_max_right a v)
      · exact .inr hmem

/-- No percentile is worse than the worst sample. -/
theorem percentile_le_worst (values : List ℚ) (hp : p ≤ 1) :
    percentile values p ≤ values.foldl max (values.headD 0) := by
  by_cases hne : values = []
  · simp [percentile, hne]
  · have hmem := (percentile_one hne).1
    exact (percentile_mono values hp le_rfl).trans (le_foldl_max (.inr hmem))

theorem stats_ordered (r : LatencyRecorder) (language : String) :
    (r.stats language).p50 ≤ (r.stats language).p95 ∧
      (r.stats language).p95 ≤ (r.stats language).p99 ∧
      (r.stats language).p99 ≤ (r.stats language).worst :=
  ⟨percentile_mono _ (by norm_num) (by norm_num), percentile_mono _ (by norm_num) (by norm_num),
    percentile_le_worst _ (by norm_num)⟩

/-- A percentile reads inside the list, is a matter of the samples alone, runs
from the least to the greatest of them and rises with the percentage; and so do
the figures of a language. -/
theorem percentiles_rise_from_the_least_to_the_greatest :
    (∀ (values : List ℚ) (p q : ℚ), 0 ≤ p → p ≤ q → q ≤ 1 →
      checkedPercentile values p = some (percentile values p) ∧
      (∀ values', values'.Perm values → percentile values' p = percentile values p) ∧
      (values ≠ [] →
        IsLeast {v | v ∈ values} (percentile values 0) ∧
        IsGreatest {v | v ∈ values} (percentile values 1) ∧
        percentile values 0 ≤ percentile values p ∧ percentile values p ≤ percentile values 1) ∧
      percentile values p ≤ percentile values q) ∧
    ∀ (r : LatencyRecorder) (language : String),
      (r.stats language).p50 ≤ (r.stats language).p95 ∧
      (r.stats language).p95 ≤ (r.stats language).p99 ∧
      (r.stats language).p99 ≤ (r.stats language).worst := by
  refine ⟨?_, stats_ordered⟩
  intro values p q h0 hpq h1
  have hp := hpq.trans h1
  refine ⟨checkedPercentile_eq values hp, fun values' h => percentile_perm h p, ?_,
    percentile_mono values hpq h1⟩
  intro hne
  exact ⟨percentile_zero hne, percentile_one hne, percentile_mono values h0 hp,
    percentile_mono values hp le_rfl⟩

end lad_translate.latency
