-- The hysteresis of the backlog guard. What it buffers is the end of what was
-- pushed, so on a contiguous stream its lag is the time of the audio that it
-- buffers: a shed leaves little of it, and only new audio adds to it.
import LadTranslate.SourceTime

open lad_translate.audio

namespace lad_translate.backpressure

open BacklogGuard source_time

/-! ## Seconds of audio -/

/-- The time of some frames. -/
def seconds (frames : List AudioFrame) : ℚ := (frames.map AudioFrame.duration).sum

theorem duration_nonneg (frame : AudioFrame) : 0 ≤ frame.duration := by
  unfold AudioFrame.duration
  positivity

@[simp] theorem seconds_nil : seconds [] = 0 := rfl

@[simp] theorem seconds_cons (frame : AudioFrame) (frames : List AudioFrame) :
    seconds (frame :: frames) = frame.duration + seconds frames := by
  simp [seconds]

@[simp] theorem seconds_append (xs ys : List AudioFrame) :
    seconds (xs ++ ys) = seconds xs + seconds ys := by
  simp [seconds]

theorem seconds_nonneg (frames : List AudioFrame) : 0 ≤ seconds frames := by
  apply List.sum_nonneg
  intro s hs
  obtain ⟨frame, -, rfl⟩ := List.mem_map.mp hs
  exact duration_nonneg frame

/-- The end of a list is no longer than the list. -/
theorem seconds_le {xs ys : List AudioFrame} (h : xs <:+ ys) : seconds xs ≤ seconds ys := by
  obtain ⟨before, rfl⟩ := h
  have hbefore := seconds_nonneg before
  rw [seconds_append]
  linarith

/-- The end of a contiguous stream follows what stands before it. -/
theorem contiguous_rest {t : ℚ} {xs ys : List AudioFrame} (h : Contiguous t (xs ++ ys)) :
    Contiguous (t + seconds xs) ys := by
  induction xs generalizing t with
  | nil => simpa [seconds] using h
  | cons x xs ih =>
    have hrest := ih h.2
    rwa [seconds_cons, ← add_assoc]

/-! ## The calls of a guard -/

/-- What happens to a guard: the source pushes a frame or ends, and the
consumer takes its turn. -/
inductive Call
  | push (frame : AudioFrame)
  | close
  | drain

namespace BacklogGuard

/-- The guard after a call. -/
def take (g : BacklogGuard) : Call → BacklogGuard
  | .push frame => g.push frame
  | .close => g.close
  | .drain => g.drain.1

/-- The guard after some calls, in order. -/
def after (g : BacklogGuard) (calls : List Call) : BacklogGuard := calls.foldl take g

@[simp] theorem after_nil (g : BacklogGuard) : g.after [] = g := rfl

theorem after_append (g : BacklogGuard) (xs ys : List Call) :
    g.after (xs ++ ys) = (g.after xs).after ys := List.foldl_append

theorem after_snoc (g : BacklogGuard) (calls : List Call) (call : Call) :
    g.after (calls ++ [call]) = (g.after calls).take call := by
  rw [after_append]
  rfl

/-- A guard starts empty, with the settings it was given. -/
theorem fresh_of_new {max_lag_s recover_to_s warn_lag_s : ℚ} {g : BacklogGuard}
    (hnew : new max_lag_s recover_to_s warn_lag_s = .ok g) :
    g.buffer = [] ∧ g.max_lag_s = max_lag_s ∧ g.recover_to_s = recover_to_s := by
  unfold new at hnew
  split at hnew
  · cases hnew
    exact ⟨rfl, rfl, rfl⟩
  · cases hnew

/-- The turn of the consumer takes the oldest frame, or nothing. -/
theorem drain_keeps (g : BacklogGuard) : g.drain.1.buffer = g.buffer.tail ∧
    g.drain.1.max_lag_s = g.max_lag_s ∧ g.drain.1.recover_to_s = g.recover_to_s ∧
    g.drain.1.newest_audio = g.newest_audio := by
  rcases hb : g.buffer with _ | ⟨frame, rest⟩
  · by_cases hc : g.closed
    · rw [drain_of_closed hb hc]
      exact ⟨hb, rfl, rfl, rfl⟩
    · rw [drain_of_open hb (by simpa using hc)]
      exact ⟨hb, rfl, rfl, rfl⟩
  · rw [drain_of_cons hb]
    exact ⟨rfl, rfl, rfl, rfl⟩

end BacklogGuard

/-- The frames that the calls push. -/
def pushed (calls : List Call) : List AudioFrame :=
  calls.filterMap fun
    | .push frame => some frame
    | _ => none

@[simp] theorem pushed_append (xs ys : List Call) : pushed (xs ++ ys) = pushed xs ++ pushed ys :=
  List.filterMap_append

@[simp] theorem pushed_push (frame : AudioFrame) (calls : List Call) :
    pushed (.push frame :: calls) = frame :: pushed calls := rfl

@[simp] theorem pushed_close (calls : List Call) : pushed (.close :: calls) = pushed calls := rfl

@[simp] theorem pushed_drain (calls : List Call) : pushed (.drain :: calls) = pushed calls := rfl

@[simp] theorem pushed_nil : pushed [] = [] := rfl

/-! ## What is buffered -/

section

variable {g : BacklogGuard}

theorem settings_of_take (call : Call) :
    (g.take call).max_lag_s = g.max_lag_s ∧ (g.take call).recover_to_s = g.recover_to_s := by
  cases call with
  | push frame => exact ⟨(g.push_settings frame).1, (g.push_settings frame).2.1⟩
  | close => exact ⟨rfl, rfl⟩
  | drain => exact ⟨g.drain_keeps.2.1, g.drain_keeps.2.2.1⟩

theorem settings_of_after (calls : List Call) :
    (g.after calls).max_lag_s = g.max_lag_s ∧ (g.after calls).recover_to_s = g.recover_to_s := by
  induction calls using List.reverseRecOn with
  | nil => exact ⟨rfl, rfl⟩
  | append_singleton calls call ih =>
    obtain ⟨hmax, hrecover⟩ := settings_of_take (g := g.after calls) call
    rw [after_snoc, hmax, hrecover]
    exact ih

/-- A call adds at most its own frame, at the back. -/
theorem buffer_of_take (call : Call) : (g.take call).buffer <:+ g.buffer ++ pushed [call] := by
  cases call with
  | push frame =>
    have hpush : (g.take (.push frame)).buffer = (g.buffer ++ [frame]).drop (g.shedBy frame) :=
      g.push_buffer frame
    rw [hpush]
    exact List.drop_suffix _ _
  | close => simp [take, close]
  | drain =>
    have hdrain : (g.take .drain).buffer = g.buffer.tail := g.drain_keeps.1
    simp [hdrain, List.tail_suffix]

/-- After any calls, what is buffered is the end of what was buffered before
and of what was pushed since. -/
theorem buffer_of_after (calls : List Call) : (g.after calls).buffer <:+ g.buffer ++ pushed calls := by
  induction calls using List.reverseRecOn with
  | nil => simp
  | append_singleton calls call ih =>
    rw [after_snoc, pushed_append, ← List.append_assoc]
    apply (buffer_of_take call).trans
    obtain ⟨before, hbefore⟩ := ih
    exact ⟨before, by rw [← hbefore, List.append_assoc]⟩

/-! ## The lag -/

/-- The guard got the frames of a stream that starts at `t`: it buffers the end
of them, and its newest audio is where they end. -/
structure Follows (t : ℚ) (frames : List AudioFrame) (g : BacklogGuard) : Prop where
  newest : frames ≠ [] → g.newest_audio = t + seconds frames
  buffer : g.buffer <:+ frames

variable {t : ℚ} {frames : List AudioFrame}

/-- On a contiguous stream the lag is the time of what is buffered. -/
theorem Follows.lag (h : Follows t frames g) (hframes : Contiguous t frames) :
    g.lagSeconds = seconds g.buffer := by
  obtain ⟨before, hbefore⟩ := h.buffer
  unfold lagSeconds
  split
  · rename_i hb
    rw [hb, seconds_nil]
  · rename_i oldest rest hb
    have hsome : frames ≠ [] := by
      rw [← hbefore, hb]
      simp
    have holdest : oldest.t_audio = t + seconds before := by
      rw [← hbefore, hb] at hframes
      exact (contiguous_rest hframes).1
    rw [h.newest hsome, holdest, ← hbefore, seconds_append]
    rw [add_sub_add_left_eq_sub, add_sub_cancel_left]
    exact max_eq_right (seconds_nonneg g.buffer)

/-- Dropping frames from the front of the buffer keeps the stream. -/
theorem Follows.drop {g' : BacklogGuard} (h : Follows t frames g)
    (hnewest : g'.newest_audio = g.newest_audio) (hbuffer : g'.buffer <:+ g.buffer) :
    Follows t frames g' where
  newest hsome := by rw [hnewest, h.newest hsome]
  buffer := hbuffer.trans h.buffer

/-- The next frame of the stream. -/
theorem Follows.arrives {frame : AudioFrame} (h : Follows t frames g)
    (hframes : Contiguous t (frames ++ [frame])) :
    Follows t (frames ++ [frame]) (g.arrives frame) where
  newest _ := by
    have hstart := (contiguous_rest hframes).1
    rw [BacklogGuard.arrives, hstart, seconds_append, seconds_cons, seconds_nil, add_zero, add_assoc]
  buffer := by
    obtain ⟨before, hbefore⟩ := h.buffer
    exact ⟨before, by rw [← hbefore, BacklogGuard.arrives, List.append_assoc]⟩

theorem Follows.push {frame : AudioFrame} (h : Follows t frames g)
    (hframes : Contiguous t (frames ++ [frame])) : Follows t (frames ++ [frame]) (g.push frame) := by
  apply (h.arrives hframes).drop (g.push_settings frame).2.2
  rw [push_buffer]
  exact List.drop_suffix _ _

theorem follows_take {call : Call} (h : Follows t frames g)
    (hframes : Contiguous t (frames ++ pushed [call])) :
    Follows t (frames ++ pushed [call]) (g.take call) := by
  cases call with
  | push frame => exact h.push hframes
  | close =>
    rw [pushed_close, pushed_nil, List.append_nil]
    exact h.drop rfl List.suffix_rfl
  | drain =>
    obtain ⟨hbuffer, -, -, hnewest⟩ := g.drain_keeps
    rw [pushed_drain, pushed_nil, List.append_nil]
    apply h.drop hnewest
    exact hbuffer ▸ List.tail_suffix _

theorem follows_after {calls : List Call} (hfresh : g.buffer = [])
    (hframes : Contiguous t (pushed calls)) : Follows t (pushed calls) (g.after calls) := by
  induction calls using List.reverseRecOn with
  | nil => exact ⟨fun h => absurd rfl h, by simp [hfresh]⟩
  | append_singleton calls call ih =>
    rw [pushed_append] at hframes ⊢
    rw [after_snoc]
    exact follows_take (ih (contiguous_append hframes)) hframes

/-! ## The cap -/

/-- The audio that is buffered is below the threshold, or it is one frame at most. -/
def Capped (g : BacklogGuard) : Prop := seconds g.buffer < g.max_lag_s ∨ g.buffer.length ≤ 1

/-- Dropping frames from the front of the buffer keeps it capped. -/
theorem Capped.drop {g' : BacklogGuard} (h : Capped g) (hmax : g'.max_lag_s = g.max_lag_s)
    (hbuffer : g'.buffer <:+ g.buffer) : Capped g' := by
  unfold Capped at h ⊢
  rw [hmax]
  apply h.imp
  · exact (seconds_le hbuffer).trans_lt
  · exact hbuffer.length_le.trans

theorem capped_take {call : Call} (h : Capped g) (hg : Follows t frames g)
    (hframes : Contiguous t (frames ++ pushed [call])) : Capped (g.take call) := by
  cases call with
  | push frame =>
    have hlag := (hg.push hframes).lag hframes
    have harrived := (hg.arrives hframes).lag hframes
    unfold Capped take
    rw [(g.push_settings frame).1]
    rcases g.push_cases frame with ⟨hbelow, hnone⟩ | ⟨-, hone | hdown⟩
    · left
      rw [push_buffer, hnone, List.drop_zero]
      rwa [harrived] at hbelow
    · exact .inr hone
    · left
      rw [← hlag]
      exact hdown.trans_lt g.settles
  | close => exact h.drop rfl List.suffix_rfl
  | drain =>
    obtain ⟨hbuffer, hmax, -, -⟩ := g.drain_keeps
    apply h.drop hmax
    exact hbuffer ▸ List.tail_suffix _

theorem capped_after {calls : List Call} (hfresh : g.buffer = [])
    (hframes : Contiguous t (pushed calls)) : Capped (g.after calls) := by
  induction calls using List.reverseRecOn with
  | nil => exact .inr (by simp [hfresh])
  | append_singleton calls call ih =>
    rw [pushed_append] at hframes
    have hbefore := contiguous_append hframes
    rw [after_snoc]
    exact capped_take (ih hbefore) (follows_after hfresh hbefore) hframes

/-! ## Between two sheds -/

/-- The stream up to one of its frames. -/
theorem contiguous_until {xs ys : List Call} {frame : AudioFrame}
    (hframes : Contiguous t (pushed (xs ++ .push frame :: ys))) :
    Contiguous t (pushed xs ++ [frame]) := by
  rw [pushed_append, pushed_push, List.append_cons] at hframes
  exact contiguous_append hframes

/-- A push that sheds leaves a lag of `recover_to_s`, or of its own frame, at most. -/
theorem lag_of_shed {frame : AudioFrame} (hg : Follows t frames g)
    (hframes : Contiguous t (frames ++ [frame])) (hshed : 0 < g.shedBy frame) :
    (g.push frame).lagSeconds ≤ max g.recover_to_s frame.duration := by
  rcases g.push_cases frame with ⟨-, hnone⟩ | ⟨-, hone | hdown⟩
  · omega
  · have hlast := g.push_keeps_newest frame
    have hbuffer : (g.push frame).buffer = [frame] := by
      rcases hb : (g.push frame).buffer with _ | ⟨x, _ | ⟨y, rest⟩⟩
      · simp [hb] at hlast
      · simpa [hb] using hlast
      · simp [hb] at hone
    rw [(hg.push hframes).lag hframes, hbuffer, seconds_cons, seconds_nil, add_zero]
    exact le_max_right _ _
  · exact hdown.trans (le_max_left _ _)

/-- A push that sheds meets a lag of `max_lag_s` at least: the frames that are
buffered, and its own. -/
theorem lag_before_shed {frame : AudioFrame} (hg : Follows t frames g)
    (hframes : Contiguous t (frames ++ [frame])) (hshed : 0 < g.shedBy frame) :
    g.max_lag_s ≤ seconds (g.buffer ++ [frame]) := by
  rcases g.push_cases frame with ⟨-, hnone⟩ | ⟨hlate, -⟩
  · omega
  · rwa [(hg.arrives hframes).lag hframes] at hlate

/-- Until a push sheds, the frames that are pushed add up to the threshold with
what was buffered at first, whatever the consumer took. -/
theorem lag_grows {calls : List Call} {frame : AudioFrame} (hg : Follows t frames (g.after calls))
    (hframes : Contiguous t (frames ++ [frame])) (hshed : 0 < (g.after calls).shedBy frame) :
    g.max_lag_s ≤ seconds g.buffer + (seconds (pushed calls) + frame.duration) := by
  have hmet := lag_before_shed hg hframes hshed
  have hkept := seconds_le (buffer_of_after (g := g) calls)
  rw [(settings_of_after calls).1] at hmet
  rw [seconds_append] at hmet hkept
  rw [seconds_cons, seconds_nil, add_zero] at hmet
  linarith

end

/-- A guard that gets contiguous frames, in any order of pushes and turns of the
consumer: its lag is below `max_lag_s`, or it buffers one frame at most. A push
that sheds leaves a lag of `recover_to_s`, or of its own frame, at most. And
until a later push sheds, the source pushes the time from there to `max_lag_s`. -/
theorem the_guard_does_not_thrash {max_lag_s recover_to_s warn_lag_s : ℚ} {g : BacklogGuard}
    (hnew : new max_lag_s recover_to_s warn_lag_s = .ok g) {t : ℚ} {calls : List Call}
    (hframes : Contiguous t (pushed calls)) :
    ((g.after calls).lagSeconds < max_lag_s ∨ (g.after calls).buffer.length ≤ 1) ∧
    (∀ xs frame ys, calls = xs ++ .push frame :: ys → 0 < (g.after xs).shedBy frame →
      ((g.after xs).push frame).lagSeconds ≤ max recover_to_s frame.duration) ∧
    (∀ xs first ys second zs, calls = xs ++ .push first :: ys ++ .push second :: zs →
      0 < (g.after xs).shedBy first → 0 < (g.after (xs ++ .push first :: ys)).shedBy second →
      max_lag_s - max recover_to_s first.duration ≤ seconds (pushed ys) + second.duration) := by
  obtain ⟨hfresh, hmax, hrecover⟩ := fresh_of_new hnew
  refine ⟨?_, ?_, ?_⟩
  · have hcapped := capped_after hfresh hframes
    unfold Capped at hcapped
    rw [(follows_after hfresh hframes).lag hframes]
    rwa [(settings_of_after calls).1, hmax] at hcapped
  · intro xs frame ys hcalls hshed
    rw [hcalls] at hframes
    have huntil := contiguous_until hframes
    have hfollows := follows_after hfresh (contiguous_append huntil)
    have hlag := lag_of_shed hfollows huntil hshed
    rwa [(settings_of_after xs).2, hrecover] at hlag
  · intro xs first ys second zs hcalls hfirst hsecond
    rw [hcalls] at hframes
    have hlater := contiguous_until hframes
    have hbetween := contiguous_append hlater
    have huntil := contiguous_until hbetween
    have hfollows := follows_after hfresh (contiguous_append huntil)
    -- the first push leaves little, and the frames since make up the rest
    have hleft := lag_of_shed hfollows huntil hfirst
    rw [(hfollows.push huntil).lag huntil, (settings_of_after xs).2, hrecover] at hleft
    have hsecond' := follows_after hfresh hbetween
    rw [after_append] at hsecond hsecond'
    have hgrown := lag_grows (g := (g.after xs).push first) hsecond' hlater hsecond
    rw [((g.after xs).push_settings first).1, (settings_of_after xs).1, hmax] at hgrown
    linarith

/-- Between the two pushes that shed the consumer takes a frame. -/
def betweenSheds : List Call := [.push (second 3), .drain, .push (second 4)]

/-- The source is ahead of the consumer all the time. -/
def slowCalls : List Call :=
  [.push (second 0), .push (second 1), .push (second 2)] ++ betweenSheds ++ [.push (second 5)]

theorem slowCalls_shed {g : BacklogGuard} (hnew : new = .ok g) :
    Contiguous 0 (pushed slowCalls) ∧
      0 < (g.after [.push (second 0), .push (second 1)]).shedBy (second 2) ∧
      0 < (g.after ([.push (second 0), .push (second 1), .push (second 2)] ++ betweenSheds)).shedBy
        (second 5) := by
  have hguard : new = .ok (.fresh 3 1 (3 / 2) (by norm_num)) := dif_pos (by norm_num)
  rw [hguard] at hnew
  cases hnew
  decide +kernel

theorem the_guard_does_not_thrash_with_a_slow_consumer :
    ∃ g, new = .ok g ∧
      ((g.after slowCalls).lagSeconds < 3 ∨ (g.after slowCalls).buffer.length ≤ 1) ∧
      ((g.after [.push (second 0), .push (second 1)]).push (second 2)).lagSeconds ≤
        max 1 (second 2).duration ∧
      3 - max 1 (second 2).duration ≤ seconds (pushed betweenSheds) + (second 5).duration := by
  obtain ⟨g, hnew⟩ : ∃ g, new = .ok g := ⟨_, dif_pos (by norm_num)⟩
  obtain ⟨hframes, hfirst, hsecond⟩ := slowCalls_shed hnew
  obtain ⟨hlag, hshed, hbetween⟩ := the_guard_does_not_thrash hnew hframes
  refine ⟨g, hnew, hlag, ?_, ?_⟩
  · exact hshed [.push (second 0), .push (second 1)] (second 2) _ rfl hfirst
  · exact hbetween [.push (second 0), .push (second 1)] (second 2) betweenSheds (second 5) [] rfl
      hfirst hsecond

end lad_translate.backpressure
