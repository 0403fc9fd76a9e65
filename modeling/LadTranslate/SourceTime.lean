-- Positions in the source stream. An adapter gets the frames that the backlog
-- guard did not shed, converted to 16 kHz. The law says where in the source its
-- first so many samples end: it adds the audio that was shed before them, and
-- what the conversion gained or lost.
import LadTranslate.Fallible
import LadTranslate.Framing
import LadTranslate.Guarded

open ledgers fallible lad_translate.audio

namespace lad_translate.source_time

open backpressure
open stt_fastconformer (SAMPLE_RATE_16K AudioFrame16k fromBuffer resampleTo16k resample_16k samplesOf)

/-! ## The frames of a source -/

/-- The frames follow one another from a position on. -/
def Contiguous : ℚ → List AudioFrame → Prop
  | _, [] => True
  | t, frame :: frames => frame.t_audio = t ∧ Contiguous (t + frame.duration) frames

instance decidableContiguous : (t : ℚ) → (frames : List AudioFrame) → Decidable (Contiguous t frames)
  | _, [] => isTrue trivial
  | t, frame :: frames =>
    have := decidableContiguous (t + frame.duration) frames
    inferInstanceAs (Decidable (_ ∧ _))

/-- The frames of a source that the adapter gets. -/
def delivered (source : List (AudioFrame × Fate)) : List AudioFrame :=
  (source.filter fun x => x.2 = .delivered).map Prod.fst

/-- The source from its frame with so many delivered ones before it, on. -/
def since : Nat → List (AudioFrame × Fate) → List (AudioFrame × Fate)
  | _, [] => []
  | k, (_, .shed) :: source => since k source
  | 0, source => source
  | k + 1, (_, .delivered) :: source => since k source

/-- How many samples an adapter makes of a frame. -/
def converted (frame : AudioFrame) : Nat :=
  ((resampleTo16k frame.pcm frame.sample_rate).toOption.getD []).length

/-- How many samples an adapter makes of some frames. -/
def convertedAll (frames : List AudioFrame) : Nat := (frames.map converted).sum

/-- Where in the source the first `n` samples of the frames end. The samples of
a frame share its time evenly. -/
def sourceEnd : List AudioFrame → Nat → ℚ
  | [], _ => 0
  | frame :: frames, n =>
    if n ≤ converted frame then frame.t_audio + frame.duration * (n / converted frame)
    else sourceEnd frames (n - converted frame)

/-- The seconds that were shed before the `n`-th sample that was delivered. -/
def lost : List (AudioFrame × Fate) → Nat → ℚ
  | [], _ => 0
  | (frame, .shed) :: source, n => frame.duration + lost source n
  | (frame, .delivered) :: source, n =>
    if n ≤ converted frame then 0 else lost source (n - converted frame)

/-- What the conversion gains on the time of the first `n` samples. -/
def gained : List AudioFrame → Nat → ℚ
  | [], _ => 0
  | frame :: frames, n =>
    if n ≤ converted frame then n / SAMPLE_RATE_16K - frame.duration * (n / converted frame)
    else converted frame / SAMPLE_RATE_16K - frame.duration + gained frames (n - converted frame)

/-! ## The law -/

section

variable {t : ℚ} {source : List (AudioFrame × Fate)} {n : Nat}

@[simp] theorem delivered_shed (frame : AudioFrame) (source : List (AudioFrame × Fate)) :
    delivered ((frame, .shed) :: source) = delivered source := by
  simp [delivered]

@[simp] theorem delivered_cons (frame : AudioFrame) (source : List (AudioFrame × Fate)) :
    delivered ((frame, .delivered) :: source) = frame :: delivered source := by
  simp [delivered]

theorem convertedAll_cons (frame : AudioFrame) (frames : List AudioFrame) :
    convertedAll (frame :: frames) = converted frame + convertedAll frames := by
  rw [convertedAll, List.map_cons, List.sum_cons, convertedAll]

theorem convertedAll_append (xs ys : List AudioFrame) :
    convertedAll (xs ++ ys) = convertedAll xs + convertedAll ys := by
  rw [convertedAll, List.map_append, List.sum_append, convertedAll, convertedAll]

/-- The first `n` samples end after their own time, later by what was shed and
earlier by what the conversion gained. -/
theorem sourceEnd_eq (hsource : Contiguous t (source.map Prod.fst)) (hsome : delivered source ≠ [])
    (hn : n ≤ convertedAll (delivered source)) :
    sourceEnd (delivered source) n =
      t + n / SAMPLE_RATE_16K + lost source n - gained (delivered source) n := by
  induction source generalizing t n with
  | nil => exact absurd rfl hsome
  | cons x source ih =>
    obtain ⟨frame, fate⟩ := x
    obtain ⟨hstart, hrest⟩ := hsource
    cases fate with
    | shed =>
      rw [delivered_shed] at hsome hn ⊢
      rw [ih hrest hsome hn, lost]
      ring
    | delivered =>
      rw [delivered_cons, convertedAll_cons] at hn
      rw [delivered_cons, sourceEnd, lost, gained]
      by_cases hin : n ≤ converted frame
      · rw [if_pos hin, if_pos hin, if_pos hin, hstart]
        ring
      · rw [if_neg hin, if_neg hin, if_neg hin]
        have hleft : n - converted frame ≤ convertedAll (delivered source) := by omega
        have hmore : delivered source ≠ [] := by
          intro hnone
          rw [hnone] at hleft
          simp only [convertedAll, List.map_nil, List.sum_nil] at hleft
          omega
        rw [ih hrest hmore hleft, Nat.cast_sub (by omega)]
        ring

/-- A count of samples is the position of their end exactly when the seconds
that were shed are those that the conversion gained. -/
theorem position_iff (hsource : Contiguous t (source.map Prod.fst)) (hsome : delivered source ≠ [])
    (hn : n ≤ convertedAll (delivered source)) :
    t + n / SAMPLE_RATE_16K = sourceEnd (delivered source) n ↔
      lost source n = gained (delivered source) n := by
  rw [sourceEnd_eq hsource hsome hn]
  constructor
  · intro h
    linarith
  · intro h
    linarith

/-- The conversion keeps the time of a frame. -/
def Exact (frame : AudioFrame) : Prop := (converted frame : ℚ) / SAMPLE_RATE_16K = frame.duration

theorem fromBuffer_length {pcm : List UInt8} {samples : List ℚ} (h : fromBuffer pcm = .ok samples) :
    pcm.length = 2 * samples.length := by
  fun_induction fromBuffer pcm generalizing samples with
  | case1 =>
    cases h
    rfl
  | case2 => cases h
  | case3 lo hi rest ih =>
    obtain ⟨more, hmore, h⟩ := bind_eq_ok.mp h
    cases h
    rw [List.length_cons, List.length_cons, List.length_cons, ih hmore]
    omega

theorem exact_of_16k {frame : AudioFrame} (h : AudioFrame16k frame) : Exact frame := by
  obtain ⟨samples, hsamples⟩ := h.2
  have hconverted : converted frame = samples.length := by
    rw [converted, resample_16k h, samplesOf, hsamples]
    rfl
  have htwice : (2 * samples.length : ℚ) / 2 = samples.length := by ring
  rw [Exact, AudioFrame.duration, hconverted, fromBuffer_length hsamples, h.1, Nat.cast_mul,
    Nat.cast_ofNat, htwice]

/-- Frames whose time the conversion keeps gain nothing. -/
theorem gained_of_exact {frames : List AudioFrame} (h : ∀ frame ∈ frames, Exact frame) (n : Nat) :
    gained frames n = 0 := by
  induction frames generalizing n with
  | nil => rfl
  | cons frame frames ih =>
    have hexact := h frame List.mem_cons_self
    rw [gained, ih fun x hx => h x (List.mem_cons_of_mem _ hx), ← hexact]
    by_cases hin : n ≤ converted frame
    · rw [if_pos hin]
      rcases Nat.eq_zero_or_pos (converted frame) with hnone | hpos
      · rw [hnone] at hin ⊢
        simp [Nat.le_zero.mp hin]
      · have hne : (converted frame : ℚ) ≠ 0 := by exact_mod_cast hpos.ne'
        field_simp
        ring
    · rw [if_neg hin]
      ring

/-! ## From a delivered frame on -/

theorem delivered_since (k : Nat) (source : List (AudioFrame × Fate)) :
    delivered (since k source) = (delivered source).drop k := by
  induction source generalizing k with
  | nil => simp [since, delivered]
  | cons x source ih =>
    obtain ⟨frame, fate⟩ := x
    cases fate with
    | shed => rw [since, delivered_shed, ih]
    | delivered =>
      cases k with
      | zero =>
        rw [List.drop_zero]
        rfl
      | succ k => rw [since, ih, delivered_cons, List.drop_succ_cons]

/-- The frames from a delivered one on follow one another from its start. -/
theorem contiguous_since (hsource : Contiguous t (source.map Prod.fst)) {k : Nat}
    {frame : AudioFrame} {rest : List AudioFrame} (hk : (delivered source).drop k = frame :: rest) :
    Contiguous frame.t_audio ((since k source).map Prod.fst) := by
  induction source generalizing t k with
  | nil => simp [delivered] at hk
  | cons x source ih =>
    obtain ⟨first, fate⟩ := x
    obtain ⟨hstart, hrest⟩ := hsource
    cases fate with
    | shed =>
      rw [delivered_shed] at hk
      exact ih hrest hk
    | delivered =>
      rw [delivered_cons] at hk
      cases k with
      | zero =>
        obtain rfl := (List.cons.inj hk).1
        exact ⟨rfl, hstart ▸ hrest⟩
      | succ k => exact ih hrest hk

/-! ## The guard -/

theorem contiguous_append {xs ys : List AudioFrame} (h : Contiguous t (xs ++ ys)) :
    Contiguous t xs := by
  induction xs generalizing t with
  | nil => trivial
  | cons x xs ih => exact ⟨h.1, ih h.2⟩

/-- What left the buffer of a guard is a source, and the adapter received the
delivered frames of it. -/
theorem source_of_guarded {ε : Type} {max_lag_s recover_to_s warn_lag_s : ℚ}
    {hvalid : recover_to_s < max_lag_s} {frames : List AudioFrame} {ending : Option ε}
    {turns : List Turn} {s : Guarded ε} (hframes : Contiguous t frames)
    (hr : (guarded (.fresh max_lag_s recover_to_s warn_lag_s hvalid) frames ending).run turns =
      some s) :
    Contiguous t (s.ledger.left.map Prod.fst) ∧ delivered s.ledger.left = s.received := by
  have hrecorded := recorded_of_run hr
  refine ⟨?_, hrecorded.received.symm⟩
  rw [← hrecorded.source, Ledger.entered, List.append_assoc] at hframes
  exact contiguous_append hframes

end

end lad_translate.source_time
