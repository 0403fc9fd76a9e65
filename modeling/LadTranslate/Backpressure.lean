-- The backlog guard (session/backpressure.py): a buffer between the room and
-- the backend. When the backlog opens past `max_lag_s`, a push sheds the
-- oldest frames. The log lines are left out.
import LadTranslate.Audio

open lad_translate.audio

namespace lad_translate.backpressure

structure BacklogStats where
  frames_in : Nat := 0
  frames_out : Nat := 0
  frames_dropped : Nat := 0
  seconds_dropped : ℚ := 0
  shed_events : Nat := 0
  peak_lag_s : ℚ := 0

/-- The bounded buffer. A guard that exists sheds to below its threshold. -/
structure BacklogGuard where
  max_lag_s : ℚ
  recover_to_s : ℚ
  warn_lag_s : ℚ
  settles : recover_to_s < max_lag_s
  stats : BacklogStats
  buffer : List AudioFrame
  arrived : Bool
  closed : Bool
  newest_audio : ℚ
  warned : Bool

namespace BacklogGuard

/-- A guard with nothing pushed. -/
def fresh (max_lag_s recover_to_s warn_lag_s : ℚ) (h : recover_to_s < max_lag_s) :
    BacklogGuard where
  max_lag_s := max_lag_s
  recover_to_s := recover_to_s
  warn_lag_s := warn_lag_s
  settles := h
  stats := {}
  buffer := []
  arrived := false
  closed := false
  newest_audio := 0
  warned := false

/-- The constructor, with its `ValueError`. -/
def new (max_lag_s : ℚ := 3) (recover_to_s : ℚ := 1) (warn_lag_s : ℚ := 3 / 2) :
    Except String BacklogGuard :=
  if h : recover_to_s < max_lag_s then .ok (fresh max_lag_s recover_to_s warn_lag_s h)
  else .error "recover_to_s must be below max_lag_s or shedding never settles"

/-- Audio time between the newest frame received and the oldest buffered. -/
def lagSeconds (g : BacklogGuard) : ℚ :=
  match g.buffer with
  | [] => 0
  | oldest :: _ => max 0 (g.newest_audio - oldest.t_audio)

/-- The loop that sheds, oldest first: the buffer that is left, the number of
dropped frames and their seconds. The newest frame always stays. -/
def shedLoop (newest_audio recover_to_s : ℚ) : List AudioFrame → Nat → ℚ → List AudioFrame × Nat × ℚ
  | frame :: next :: rest, dropped, seconds =>
    if max 0 (newest_audio - frame.t_audio) > recover_to_s then
      shedLoop newest_audio recover_to_s (next :: rest) (dropped + 1) (seconds + frame.duration)
    else (frame :: next :: rest, dropped, seconds)
  | buffer, dropped, seconds => (buffer, dropped, seconds)

def shedIfBehind (g : BacklogGuard) : BacklogGuard :=
  let lag := g.lagSeconds
  let warned :=
    if lag ≥ g.warn_lag_s ∧ g.warned = false then true
    else if lag < g.warn_lag_s then false
    else g.warned
  let g := { g with stats.peak_lag_s := max g.stats.peak_lag_s lag, warned }
  if lag < g.max_lag_s then g
  else
    let (buffer, dropped, seconds) := shedLoop g.newest_audio g.recover_to_s g.buffer 0 0
    if dropped = 0 then { g with buffer }
    else { g with
      buffer
      stats.frames_dropped := g.stats.frames_dropped + dropped
      stats.seconds_dropped := g.stats.seconds_dropped + seconds
      stats.shed_events := g.stats.shed_events + 1 }

/-- Accept one frame, shedding older audio if the backlog has opened up. -/
def push (g : BacklogGuard) (frame : AudioFrame) : BacklogGuard :=
  let g := { g with
    stats.frames_in := g.stats.frames_in + 1
    newest_audio := frame.t_audio + frame.duration
    buffer := g.buffer ++ [frame] }
  { g.shedIfBehind with arrived := true }

/-- Signal that no more frames are coming. -/
def close (g : BacklogGuard) : BacklogGuard := { g with closed := true, arrived := true }

/-- What `drain` does next. -/
inductive Drained
  | yields (frame : AudioFrame)
  | returns
  | waits

/-- `drain` from one yield, or from the end of a wait, to the next. -/
def drain (g : BacklogGuard) : BacklogGuard × Drained :=
  match g.buffer with
  | frame :: rest => ({ g with stats.frames_out := g.stats.frames_out + 1, buffer := rest }, .yields frame)
  | [] => if g.closed then (g, .returns) else ({ g with arrived := false }, .waits)

theorem drain_of_cons {g : BacklogGuard} {frame : AudioFrame} {rest : List AudioFrame}
    (hb : g.buffer = frame :: rest) : g.drain =
      ({ g with stats.frames_out := g.stats.frames_out + 1, buffer := rest }, .yields frame) := by
  unfold drain
  split
  · rename_i hb'
    rw [hb] at hb'
    cases hb'
    rfl
  · simp_all

theorem drain_of_closed {g : BacklogGuard} (hb : g.buffer = []) (hc : g.closed = true) :
    g.drain = (g, .returns) := by
  unfold drain
  split
  · simp_all
  · rw [if_pos hc]

theorem drain_of_open {g : BacklogGuard} (hb : g.buffer = []) (hc : g.closed = false) :
    g.drain = ({ g with arrived := false }, .waits) := by
  unfold drain
  split
  · simp_all
  · rw [if_neg (by simp [hc])]

/-! ## What a push does -/

/-- The loop drops some oldest frames, counts them, and never drops the last one. -/
theorem shedLoop_eq (newest_audio recover_to_s : ℚ) (buffer : List AudioFrame) (dropped : Nat)
    (seconds : ℚ) : ∃ k, (buffer ≠ [] → k < buffer.length) ∧
      shedLoop newest_audio recover_to_s buffer dropped seconds =
        (buffer.drop k, dropped + k, seconds + ((buffer.take k).map AudioFrame.duration).sum) := by
  fun_induction shedLoop newest_audio recover_to_s buffer dropped seconds with
  | case1 frame next rest dropped seconds _ ih =>
    obtain ⟨k, hk, heq⟩ := ih
    have hlt := hk (by simp)
    refine ⟨k + 1, fun _ => by simpa using hlt, ?_⟩
    rw [heq]
    simp only [List.drop_succ_cons, List.take_succ_cons, List.map_cons, List.sum_cons, Prod.mk.injEq,
      true_and]
    exact ⟨by omega, by ring⟩
  | case2 frame next rest dropped seconds _ => exact ⟨0, fun _ => by simp, by simp⟩
  | case3 buffer dropped seconds _ => exact ⟨0, List.length_pos_iff.mpr, by simp⟩

/-- The loop stops at one frame, or when the lag is down to `recover_to_s`. -/
theorem shedLoop_stops (newest_audio recover_to_s : ℚ) (buffer : List AudioFrame) (dropped : Nat)
    (seconds : ℚ) {g : BacklogGuard} (hnewest : g.newest_audio = newest_audio)
    (hbuffer : g.buffer = (shedLoop newest_audio recover_to_s buffer dropped seconds).1) :
    g.buffer.length ≤ 1 ∨ g.lagSeconds ≤ recover_to_s := by
  fun_induction shedLoop newest_audio recover_to_s buffer dropped seconds with
  | case1 frame next rest dropped seconds _ ih => exact ih hbuffer
  | case2 frame next rest dropped seconds hlag =>
    right
    unfold lagSeconds
    rw [hbuffer, hnewest]
    exact not_lt.mp hlag
  | case3 buffer dropped seconds hshort =>
    left
    rw [hbuffer]
    rcases buffer with _ | ⟨frame, _ | ⟨next, rest⟩⟩
    · simp
    · simp
    · exact absurd rfl (hshort frame next rest)

/-- The number of frames that the push of a frame sheds. -/
def shedBy (g : BacklogGuard) (frame : AudioFrame) : Nat :=
  (g.push frame).stats.frames_dropped - g.stats.frames_dropped

/-- A push adds one frame at the back, then sheds `k` from the front, which
are not the frame itself. -/
theorem push_sheds (g : BacklogGuard) (frame : AudioFrame) : ∃ k, k ≤ g.buffer.length ∧
    (g.push frame).buffer = (g.buffer ++ [frame]).drop k ∧
    (g.push frame).stats.frames_in = g.stats.frames_in + 1 ∧
    (g.push frame).stats.frames_out = g.stats.frames_out ∧
    (g.push frame).stats.frames_dropped = g.stats.frames_dropped + k ∧
    (g.push frame).closed = g.closed ∧ (g.push frame).arrived = true := by
  unfold push shedIfBehind
  simp only
  split
  · exact ⟨0, Nat.zero_le _, rfl, rfl, rfl, rfl, rfl, trivial⟩
  · obtain ⟨k, hk, heq⟩ := shedLoop_eq (frame.t_audio + frame.duration) g.recover_to_s
      (g.buffer ++ [frame]) 0 0
    have hlt := hk (by simp)
    rw [List.length_append, List.length_singleton] at hlt
    rw [heq]
    simp only [Nat.zero_add]
    split
    · rename_i hzero
      exact ⟨k, by omega, rfl, rfl, rfl, by simp [hzero], rfl, trivial⟩
    · exact ⟨k, by omega, rfl, rfl, rfl, rfl, rfl, trivial⟩

theorem shedBy_le (g : BacklogGuard) (frame : AudioFrame) : g.shedBy frame ≤ g.buffer.length := by
  obtain ⟨k, hk, -, -, -, hd, -, -⟩ := g.push_sheds frame
  unfold shedBy
  omega

theorem push_buffer (g : BacklogGuard) (frame : AudioFrame) :
    (g.push frame).buffer = (g.buffer ++ [frame]).drop (g.shedBy frame) := by
  obtain ⟨k, -, hb, -, -, hd, -, -⟩ := g.push_sheds frame
  have hk : g.shedBy frame = k := by
    unfold shedBy
    omega
  rw [hk, hb]

@[simp] theorem push_frames_in (g : BacklogGuard) (frame : AudioFrame) :
    (g.push frame).stats.frames_in = g.stats.frames_in + 1 := by
  obtain ⟨k, -, -, h, -⟩ := g.push_sheds frame
  exact h

@[simp] theorem push_frames_out (g : BacklogGuard) (frame : AudioFrame) :
    (g.push frame).stats.frames_out = g.stats.frames_out := by
  obtain ⟨k, -, -, -, h, -⟩ := g.push_sheds frame
  exact h

@[simp] theorem push_frames_dropped (g : BacklogGuard) (frame : AudioFrame) :
    (g.push frame).stats.frames_dropped = g.stats.frames_dropped + g.shedBy frame := by
  obtain ⟨k, -, -, -, -, h, -⟩ := g.push_sheds frame
  unfold shedBy
  omega

@[simp] theorem push_closed (g : BacklogGuard) (frame : AudioFrame) :
    (g.push frame).closed = g.closed := by
  obtain ⟨k, -, -, -, -, -, h, -⟩ := g.push_sheds frame
  exact h

@[simp] theorem push_arrived (g : BacklogGuard) (frame : AudioFrame) :
    (g.push frame).arrived = true := rfl

/-- The newest frame is never shed by its own push. -/
theorem push_keeps_newest (g : BacklogGuard) (frame : AudioFrame) :
    (g.push frame).buffer.getLast? = some frame := by
  rw [push_buffer, List.drop_append_of_le_length (g.shedBy_le frame), List.getLast?_concat]

/-- The guard with a frame at the back, before it sheds. -/
def arrives (g : BacklogGuard) (frame : AudioFrame) : BacklogGuard :=
  { g with newest_audio := frame.t_audio + frame.duration, buffer := g.buffer ++ [frame] }

/-- A push keeps the settings, and dates the newest audio to the end of its frame. -/
theorem push_settings (g : BacklogGuard) (frame : AudioFrame) :
    (g.push frame).max_lag_s = g.max_lag_s ∧ (g.push frame).recover_to_s = g.recover_to_s ∧
      (g.push frame).newest_audio = frame.t_audio + frame.duration := by
  unfold push shedIfBehind
  simp only
  split
  · exact ⟨rfl, rfl, rfl⟩
  · split <;> exact ⟨rfl, rfl, rfl⟩

/-- A push that meets a lag below the threshold sheds nothing. One that meets a
longer lag leaves one frame, or a lag down to `recover_to_s`. -/
theorem push_cases (g : BacklogGuard) (frame : AudioFrame) :
    (g.arrives frame).lagSeconds < g.max_lag_s ∧ g.shedBy frame = 0 ∨
      g.max_lag_s ≤ (g.arrives frame).lagSeconds ∧
        ((g.push frame).buffer.length ≤ 1 ∨ (g.push frame).lagSeconds ≤ g.recover_to_s) := by
  by_cases hlag : (g.arrives frame).lagSeconds < g.max_lag_s
  · left
    refine ⟨hlag, ?_⟩
    have hpush : (g.push frame).stats.frames_dropped = g.stats.frames_dropped := by
      unfold push shedIfBehind
      simp only
      rw [if_pos]
      exact hlag
    unfold shedBy
    omega
  · right
    refine ⟨not_lt.mp hlag, ?_⟩
    apply shedLoop_stops (frame.t_audio + frame.duration) g.recover_to_s (g.buffer ++ [frame]) 0 0
    · exact (g.push_settings frame).2.2
    · unfold push shedIfBehind
      simp only
      rw [if_neg (by exact hlag)]
      split <;> rfl

end BacklogGuard

end lad_translate.backpressure
