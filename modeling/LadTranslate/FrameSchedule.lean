-- The frame arithmetic of the streaming encoder (adapters/stt_fastconformer.py):
-- which feature frames form the next step, and which may be dropped. Frame
-- indices are absolute, counted from the first frame of the session.
import Mathlib

namespace lad_translate.stt_fastconformer

/-- The encoder's `streaming_cfg`, normalised: the first step has its own sizes. -/
structure StreamingGeometry where
  chunk_size_first : Nat
  chunk_size : Nat
  shift_size_first : Nat
  shift_size : Nat
  pre_encode_cache_first : Nat
  pre_encode_cache : Nat
  drop_extra_pre_encoded : Nat
  subsampling_factor : Nat := 8
deriving DecidableEq, Repr

/-- Each step moves on, and not past its own chunk. -/
structure StreamingGeometry.Advances (g : StreamingGeometry) : Prop where
  first_pos : 1 ≤ g.shift_size_first
  first_le : g.shift_size_first ≤ g.chunk_size_first
  steady_pos : 1 ≤ g.shift_size
  steady_le : g.shift_size ≤ g.chunk_size

/-- Seconds of source audio up to a feature frame index, at 10 ms a frame. -/
def StreamingGeometry.audioTime (_ : StreamingGeometry) (frame : Nat) : ℚ := frame * (1 / 100)

/-- One encoder step. -/
structure ChunkPlan where
  step : Nat
  start : Nat
  stop : Nat
  cache_start : Nat
  zero_pad : Nat
  drop_extra_pre_encoded : Nat
deriving DecidableEq, Repr

/-- The history frames prepended to the chunk. -/
def ChunkPlan.cacheFrames (p : ChunkPlan) : Nat := p.start - p.cache_start

/-- Total frames handed to the encoder, history and padding included. -/
def ChunkPlan.width (p : ChunkPlan) : Nat := p.zero_pad + p.cacheFrames + (p.stop - p.start)

/-- Which frames form the next step. -/
structure ChunkSchedule where
  geometry : StreamingGeometry
  step : Nat
  cursor : Nat
deriving DecidableEq, Repr

namespace ChunkSchedule

def fresh (geometry : StreamingGeometry) : ChunkSchedule := ⟨geometry, 0, 0⟩

/-- (chunk, shift, pre_encode_cache, drop_extra) for the current step. -/
def sizes (s : ChunkSchedule) : Nat × Nat × Nat × Nat :=
  let g := s.geometry
  if s.step = 0 then (g.chunk_size_first, g.shift_size_first, g.pre_encode_cache_first, 0)
  else (g.chunk_size, g.shift_size, g.pre_encode_cache, g.drop_extra_pre_encoded)

def chunk (s : ChunkSchedule) : Nat := s.sizes.1

def shift (s : ChunkSchedule) : Nat := s.sizes.2.1

def cache (s : ChunkSchedule) : Nat := s.sizes.2.2.1

def drop (s : ChunkSchedule) : Nat := s.sizes.2.2.2

/-- The step that ends at `stop`, with as much history as there is. -/
def plan (s : ChunkSchedule) (stop : Nat) : ChunkPlan :=
  let cache_frames := min s.cache s.cursor
  { step := s.step
    start := s.cursor
    stop
    cache_start := s.cursor - cache_frames
    zero_pad := s.cache - cache_frames
    drop_extra_pre_encoded := s.drop }

/-- The schedule after a step. -/
def advance (s : ChunkSchedule) : ChunkSchedule :=
  { s with cursor := s.cursor + s.shift, step := s.step + 1 }

/-- The loop of `offer`. With shifts of 0 it may never end: the fuel runs out,
and the result is `none`. -/
def offerLoop (available : Nat) : Nat → ChunkSchedule → Option (ChunkSchedule × List ChunkPlan)
  | 0, _ => none
  | fuel + 1, s =>
    let stop := s.cursor + s.chunk
    if stop > available then some (s, [])
    else (offerLoop available fuel s.advance).map fun (t, plans) => (t, s.plan stop :: plans)

/-- Given the total frames received so far, the steps now runnable. -/
def offer (s : ChunkSchedule) (available : Nat) : Option (ChunkSchedule × List ChunkPlan) :=
  offerLoop available (available + 3) s

/-- The final, short step at end of session. -/
def flush (s : ChunkSchedule) (available : Nat) : ChunkSchedule × Option ChunkPlan :=
  if available ≤ s.cursor then (s, none)
  else ({ s with cursor := available, step := s.step + 1 }, some (s.plan available))

/-- Oldest frame the next step could still need. -/
def retainFrom (s : ChunkSchedule) : Nat := s.cursor - s.cache

/-! ## What a schedule offers -/

/-- The steps that an offer runs, one after another. -/
inductive Offers (available : Nat) : ChunkSchedule → List ChunkPlan → ChunkSchedule → Prop
  | done {s : ChunkSchedule} (h : available < s.cursor + s.chunk) : Offers available s [] s
  | next {s t : ChunkSchedule} {plans : List ChunkPlan} (h : s.cursor + s.chunk ≤ available)
      (rest : Offers available s.advance plans t) :
      Offers available s (s.plan (s.cursor + s.chunk) :: plans) t

theorem offerLoop_offers {available fuel : Nat} {s t : ChunkSchedule} {plans : List ChunkPlan}
    (h : offerLoop available fuel s = some (t, plans)) : Offers available s plans t := by
  induction fuel generalizing s plans with
  | zero => simp [offerLoop] at h
  | succ fuel ih =>
    unfold offerLoop at h
    simp only at h
    split at h
    · rename_i hstop
      cases h
      exact .done hstop
    · rename_i hstop
      simp only [Option.map_eq_some_iff, Prod.exists, Prod.mk.injEq] at h
      obtain ⟨u, rest, hrest, rfl, rfl⟩ := h
      exact .next (Nat.le_of_not_lt hstop) (ih hrest)

theorem offer_offers {available : Nat} {s t : ChunkSchedule} {plans : List ChunkPlan}
    (h : s.offer available = some (t, plans)) : Offers available s plans t :=
  offerLoop_offers h

/-- An offer has one outcome. -/
theorem Offers.unique {available : Nat} {s t t' : ChunkSchedule} {plans plans' : List ChunkPlan}
    (h : Offers available s plans t) (h' : Offers available s plans' t') :
    plans = plans' ∧ t = t' := by
  induction h generalizing plans' with
  | done hstop =>
    cases h' with
    | done _ => exact ⟨rfl, rfl⟩
    | next hle _ => omega
  | next hle _ ih =>
    cases h' with
    | done hstop => omega
    | next _ rest =>
      obtain ⟨rfl, rfl⟩ := ih rest
      exact ⟨rfl, rfl⟩

/-- Two offers in a row are one offer of the greater count. -/
theorem Offers.trans {a b : Nat} (hab : a ≤ b) {s t u : ChunkSchedule} {ps qs : List ChunkPlan}
    (h : Offers a s ps t) (h' : Offers b t qs u) : Offers b s (ps ++ qs) u := by
  induction h with
  | done _ => exact h'
  | next hle _ ih => exact .next (hle.trans hab) (ih h')

/-- No step of an offer ends beyond the frames that have arrived. -/
theorem Offers.stop_le {available : Nat} {s t : ChunkSchedule} {plans : List ChunkPlan}
    (h : Offers available s plans t) : ∀ plan ∈ plans, plan.stop ≤ available := by
  induction h with
  | done _ => simp
  | next hle _ ih =>
    intro plan hplan
    rcases List.mem_cons.mp hplan with rfl | hplan
    · exact hle
    · exact ih plan hplan

/-- The flush goes through everything. -/
theorem flush_stop {s : ChunkSchedule} {available : Nat} {plan : ChunkPlan}
    (hflush : (s.flush available).2 = some plan) : plan.stop = available := by
  unfold flush at hflush
  split at hflush
  · cases hflush
  · cases hflush
    rfl

theorem chunk_pos {s : ChunkSchedule} (h : s.geometry.Advances) : 1 ≤ s.chunk ∧ 1 ≤ s.shift := by
  unfold chunk shift sizes
  simp only
  split
  · exact ⟨h.first_pos.trans h.first_le, h.first_pos⟩
  · exact ⟨h.steady_pos.trans h.steady_le, h.steady_pos⟩

theorem offerLoop_ends {available fuel : Nat} {s : ChunkSchedule} (hg : s.geometry.Advances)
    (hf : available < s.cursor + fuel) : ∃ r, offerLoop available (fuel + 1) s = some r := by
  induction fuel generalizing s with
  | zero =>
    have hpos := chunk_pos hg
    exact ⟨(s, []), by rw [offerLoop, if_pos (by omega)]⟩
  | succ fuel ih =>
    have hpos := chunk_pos hg
    rw [offerLoop]
    simp only
    split
    · exact ⟨_, rfl⟩
    · obtain ⟨r, hr⟩ := ih (s := s.advance) hg (by simp only [advance]; omega)
      exact ⟨_, by rw [hr]; rfl⟩

/-- With steps that move on, an offer ends. -/
theorem offer_ends {s : ChunkSchedule} (hg : s.geometry.Advances) (available : Nat) :
    ∃ t plans, s.offer available = some (t, plans) := by
  have hfuel : available < s.cursor + (available + 2) := by omega
  obtain ⟨⟨t, plans⟩, hr⟩ := offerLoop_ends hg hfuel
  exact ⟨t, plans, hr⟩

theorem Offers.geometry {available : Nat} {s t : ChunkSchedule} {plans : List ChunkPlan}
    (h : Offers available s plans t) : t.geometry = s.geometry := by
  induction h with
  | done _ => rfl
  | next _ _ ih => exact ih

/-- A schedule that took no step stands at the first frame. -/
def Started (s : ChunkSchedule) : Prop := s.step = 0 → s.cursor = 0

theorem started_advance (s : ChunkSchedule) : s.advance.Started := by
  intro h
  simp [advance] at h

/-- What the next step needs never moves back. -/
theorem retainFrom_le_advance {s : ChunkSchedule} (h : s.Started) :
    s.retainFrom ≤ s.advance.retainFrom := by
  by_cases hstep : s.step = 0
  · rw [retainFrom, h hstep, Nat.zero_sub]
    exact Nat.zero_le _
  · have hcache : s.advance.cache = s.cache := by simp [cache, sizes, advance, hstep]
    rw [retainFrom, retainFrom, hcache]
    simp only [advance]
    omega

/-- Every step of an offer reads frames that its schedule retained, and only
frames that have arrived. -/
theorem Offers.within {available : Nat} {s t : ChunkSchedule} {plans : List ChunkPlan}
    (hg : s.geometry.Advances) (hs : s.Started) (h : Offers available s plans t) :
    (∀ p ∈ plans, s.retainFrom ≤ p.cache_start ∧ 0 < p.stop ∧ p.stop ≤ available) ∧
      s.retainFrom ≤ t.retainFrom ∧ t.Started := by
  induction h with
  | done _ => exact ⟨by simp, le_rfl, hs⟩
  | @next s t plans hle _ ih =>
    obtain ⟨hplans, hretain, hstart⟩ := ih hg (started_advance s)
    have hmove := retainFrom_le_advance hs
    have hpos := (chunk_pos hg).1
    refine ⟨?_, hmove.trans hretain, hstart⟩
    intro p hp
    rcases List.mem_cons.mp hp with rfl | hp
    · refine ⟨?_, ?_, hle⟩
      · simp only [plan, retainFrom]
        omega
      · simp only [plan]
        omega
    · exact ⟨hmove.trans (hplans p hp).1, (hplans p hp).2⟩

end ChunkSchedule

/-! ## The buffer of features -/

/-- Absolute-to-local index bookkeeping for a buffer that discards its head. -/
structure FrameWindow where
  origin : Nat
  total : Nat
deriving DecidableEq, Repr

namespace FrameWindow

def held (w : FrameWindow) : Nat := w.total - w.origin

def extend (w : FrameWindow) (count : Nat) : FrameWindow := { w with total := w.total + count }

/-- Translate an absolute frame range into offsets, or raise the `IndexError`. -/
def localRange (w : FrameWindow) (start stop : Nat) : Except String (Nat × Nat) :=
  if start < w.origin then
    .error s!"frame {start} was already discarded (window starts at {w.origin}); the schedule and the buffer have diverged"
  else if stop > w.total then
    .error s!"frame {stop} has not arrived yet (only {w.total} received); a step was scheduled against audio that does not exist"
  else .ok (start - w.origin, stop - w.origin)

/-- Discard everything older: the window, and how many frames went. -/
def dropBefore (w : FrameWindow) (absolute : Nat) : FrameWindow × Nat :=
  let target := min (max absolute w.origin) w.total
  ({ w with origin := target }, target - w.origin)

end FrameWindow

/-- A bounded window over the feature stream. The tensor is a list of frames,
and `none` before the first append. -/
structure FeatureBuffer (φ : Type) where
  frames : Option (List φ)
  window : FrameWindow

namespace FeatureBuffer

variable {φ : Type}

def fresh : FeatureBuffer φ := ⟨none, ⟨0, 0⟩⟩

def available (b : FeatureBuffer φ) : Nat := b.window.total

def append (b : FeatureBuffer φ) (features : List φ) : FeatureBuffer φ :=
  { frames := match b.frames with
      | none => some features
      | some frames => some (frames ++ features)
    window := b.window.extend features.length }

/-- The frames from `start` to `stop`, or the exception. -/
def slice (b : FeatureBuffer φ) (start stop : Nat) : Except String (List φ) := do
  let (lo, hi) ← b.window.localRange start stop
  match b.frames with
  | none => .error "'NoneType' object is not subscriptable"
  | some frames => .ok ((frames.take hi).drop lo)

def discardBefore (b : FeatureBuffer φ) (absolute : Nat) : FeatureBuffer φ :=
  let (window, dropped) := b.window.dropBefore absolute
  { frames := if dropped = 0 then b.frames else b.frames.map (·.drop dropped), window }

/-- The buffer holds the tail of a stream of features, from its origin on. -/
structure Holds (b : FeatureBuffer φ) (features : List φ) : Prop where
  total : b.window.total = features.length
  origin : b.window.origin ≤ features.length
  frames : b.frames.getD [] = features.drop b.window.origin
  none : b.frames = none → features = []

theorem holds_fresh : (fresh : FeatureBuffer φ).Holds [] :=
  ⟨rfl, le_rfl, rfl, fun _ => rfl⟩

theorem Holds.append {b : FeatureBuffer φ} {features : List φ} (h : b.Holds features)
    (more : List φ) :
    (b.append more).Holds (features ++ more) := by
  refine ⟨?_, ?_, ?_, ?_⟩
  · simp [FeatureBuffer.append, FrameWindow.extend, h.total]
  · have := h.origin
    simp only [FeatureBuffer.append, FrameWindow.extend, List.length_append]
    omega
  · have horigin : (b.append more).window.origin = b.window.origin := rfl
    rw [horigin, List.drop_append_of_le_length h.origin, ← h.frames]
    cases hb : b.frames with
    | none => simp [FeatureBuffer.append, hb]
    | some frames => simp [FeatureBuffer.append, hb]
  · intro hnone
    cases hb : b.frames <;> simp [FeatureBuffer.append, hb] at hnone

theorem discardBefore_frames (b : FeatureBuffer φ) (absolute : Nat) :
    (b.discardBefore absolute).frames =
      b.frames.map (·.drop (b.window.dropBefore absolute).2) := by
  have heq : (b.discardBefore absolute).frames =
      if (b.window.dropBefore absolute).2 = 0 then b.frames
      else b.frames.map (·.drop (b.window.dropBefore absolute).2) := rfl
  rw [heq]
  split
  · rename_i hzero
    rw [hzero]
    cases b.frames <;> rfl
  · rfl

theorem Holds.discardBefore {b : FeatureBuffer φ} {features : List φ} (h : b.Holds features)
    (absolute : Nat) : (b.discardBefore absolute).Holds features := by
  obtain ⟨htotal, horigin, hframes, hnone⟩ := h
  have hwindow : (b.discardBefore absolute).window =
      { b.window with origin := min (max absolute b.window.origin) b.window.total } := rfl
  refine ⟨by rw [hwindow]; exact htotal, by rw [hwindow, ← htotal]; exact min_le_right _ _, ?_, ?_⟩
  · have hto : (b.discardBefore absolute).window.origin =
        b.window.origin + (b.window.dropBefore absolute).2 := by
      rw [hwindow]
      simp only [FrameWindow.dropBefore]
      omega
    rw [hto, ← List.drop_drop, ← hframes, discardBefore_frames]
    cases b.frames <;> simp
  · intro hd
    rw [discardBefore_frames, Option.map_eq_none_iff] at hd
    exact hnone hd

/-- A slice that starts after the origin, and ends at a frame that arrived, is
the slice of the whole stream. -/
theorem Holds.slice {b : FeatureBuffer φ} {features : List φ} (h : b.Holds features)
    {start stop : Nat} (horigin : b.window.origin ≤ start) (hstop : stop ≤ features.length)
    (hpos : 0 < stop) : b.slice start stop = .ok ((features.take stop).drop start) := by
  have hrange : b.window.localRange start stop =
      .ok (start - b.window.origin, stop - b.window.origin) := by
    rw [FrameWindow.localRange, if_neg (by omega), if_neg (by rw [h.total]; omega)]
  cases hb : b.frames with
  | none =>
    have hnil := h.none hb
    rw [hnil, List.length_nil] at hstop
    omega
  | some frames =>
    have hframes := h.frames
    rw [hb, Option.getD_some] at hframes
    simp only [FeatureBuffer.slice, hrange, hb]
    show Except.ok _ = _
    rw [hframes, ← List.drop_take, List.drop_drop]
    congr 3
    omega

end FeatureBuffer

end lad_translate.stt_fastconformer
