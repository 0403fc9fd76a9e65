-- The laws of the guarded stream (`guarded` in session/backpressure.py): the
-- feed task, the guard and the consumer, which take turns at the awaits. A
-- turn of the feed task pushes one frame. A turn of the consumer runs the
-- generator to its next yield or wait.
import LadTranslate.Backpressure
import LadTranslate.Ledgers
import LadTranslate.Machines

open machines ledgers lad_translate.audio

namespace lad_translate.backpressure

/-- How a frame left the buffer. -/
inductive Fate
  | delivered
  | shed
deriving DecidableEq

/-- How a task or a generator ended. -/
inductive Ended (ε : Type)
  | returned
  | raised (e : ε)
  | cancelled
deriving DecidableEq

/-- The feed task. A scheduled one was created and did not run yet. -/
inductive Feeder (ε : Type)
  | absent
  | scheduled
  | running
  | done (r : Ended ε)
deriving DecidableEq

def Feeder.active {ε : Type} : Feeder ε → Bool
  | .scheduled | .running => true
  | _ => false

/-- The consumer of `guarded`: before its first frame, waiting for the arrival
event, holding a frame, awaiting the feed task, at the end of the stream, or
gone before it. -/
inductive Consumer (ε : Type)
  | created
  | waiting
  | holding
  | joining
  | finished (r : Ended ε)
  | abandoned
deriving DecidableEq

/-- The whole stream. The ledger and the received frames are the record that
the laws speak about. -/
structure Guarded (ε : Type) where
  guard : BacklogGuard
  todo : List AudioFrame
  feeder : Feeder ε
  cancel : Bool
  consumer : Consumer ε
  ledger : Ledger AudioFrame Fate
  received : List AudioFrame

/-- A turn. -/
inductive Turn
  /-- the feed task pushes the next frame of the source -/
  | frame
  /-- the source ends or raises, and the feed task closes the guard -/
  | finish
  /-- the feed task gets its cancellation -/
  | cancel
  /-- the consumer asks for a frame -/
  | pull
  /-- the arrival event wakes the consumer -/
  | wake
  /-- the feed task is done, and the consumer gets its result -/
  | join
  /-- the consumer closes the generator, or is cancelled while it waits -/
  | abandon
deriving DecidableEq

variable {ε : Type}

/-- The result of the feed task, when nobody cancels it: `none` is a source
that ends, `some e` one that raises. -/
def outcome : Option ε → Ended ε
  | none => .returned
  | some e => .raised e

namespace Guarded

/-- The generator runs to its next yield or wait. -/
def resume (s : Guarded ε) : Guarded ε :=
  match s.guard.drain with
  | (guard, .yields frame) =>
    { s with
      guard
      consumer := .holding
      ledger := s.ledger.leave 1 .delivered
      received := s.received ++ [frame] }
  | (guard, .returns) => { s with guard, consumer := .joining }
  | (guard, .waits) => { s with guard, consumer := .waiting }

/-- The feed task pushes a frame. The frames that it sheds leave first. -/
def pushed (s : Guarded ε) (frame : AudioFrame) (rest : List AudioFrame) : Guarded ε :=
  { s with
    guard := s.guard.push frame
    todo := rest
    feeder := .running
    ledger := (s.ledger.enter frame).leave (s.guard.shedBy frame) .shed }

/-- The feed task ends. Its `finally` closes the guard. -/
def closed (s : Guarded ε) (r : Ended ε) : Guarded ε :=
  { s with guard := s.guard.close, feeder := .done r }

def step (ending : Option ε) (s : Guarded ε) : Turn → Option (Guarded ε)
  | .frame =>
    match s.feeder.active && !s.cancel, s.todo with
    | true, frame :: rest => some (s.pushed frame rest)
    | _, _ => none
  | .finish =>
    match s.feeder.active && !s.cancel, s.todo with
    | true, [] => some (s.closed (outcome ending))
    | _, _ => none
  | .cancel =>
    match s.cancel, s.feeder with
    -- a task that never ran has no `finally` to run
    | true, .scheduled => some { s with feeder := .done .cancelled }
    | true, .running => some (s.closed .cancelled)
    | _, _ => none
  | .pull =>
    match s.consumer with
    | .created => some { s with feeder := .scheduled }.resume
    | .holding => some s.resume
    | _ => none
  | .wake =>
    match s.consumer, s.guard.arrived with
    | .waiting, true => some s.resume
    | _, _ => none
  | .join =>
    match s.consumer, s.feeder with
    | .joining, .done r => some { s with consumer := .finished r }
    | _, _ => none
  | .abandon =>
    match s.consumer with
    | .waiting | .holding => some { s with consumer := .abandoned, cancel := s.feeder.active }
    | _ => none

end Guarded

/-- The machine of the turns, on a source with these frames and this ending. -/
def guarded (guard : BacklogGuard) (frames : List AudioFrame) (ending : Option ε) :
    Machine (Guarded ε) Turn where
  start :=
    { guard, todo := frames, feeder := .absent, cancel := false, consumer := .created
      ledger := .empty, received := [] }
  step := Guarded.step ending

/-- The turns, with what each one asks for. -/
inductive Took (ending : Option ε) (s : Guarded ε) : Turn → Guarded ε → Prop
  | frame {frame : AudioFrame} {rest : List AudioFrame} (active : s.feeder.active = true)
      (free : s.cancel = false) (todo : s.todo = frame :: rest) :
      Took ending s .frame (s.pushed frame rest)
  | finish (active : s.feeder.active = true) (free : s.cancel = false) (todo : s.todo = []) :
      Took ending s .finish (s.closed (outcome ending))
  | unscheduled (cancel : s.cancel = true) (feeder : s.feeder = .scheduled) :
      Took ending s .cancel { s with feeder := .done .cancelled }
  | cancelled (cancel : s.cancel = true) (feeder : s.feeder = .running) :
      Took ending s .cancel (s.closed .cancelled)
  | first (consumer : s.consumer = .created) :
      Took ending s .pull { s with feeder := .scheduled }.resume
  | next (consumer : s.consumer = .holding) : Took ending s .pull s.resume
  | woken (consumer : s.consumer = .waiting) (arrived : s.guard.arrived = true) :
      Took ending s .wake s.resume
  | joined {r : Ended ε} (consumer : s.consumer = .joining) (feeder : s.feeder = .done r) :
      Took ending s .join { s with consumer := .finished r }
  | left (consumer : s.consumer = .waiting ∨ s.consumer = .holding) :
      Took ending s .abandon { s with consumer := .abandoned, cancel := s.feeder.active }

theorem took_of_step {ending : Option ε} {s t : Guarded ε} {a : Turn}
    (h : s.step ending a = some t) : Took ending s a t := by
  cases a with
  | frame =>
    simp only [Guarded.step] at h
    split at h
    · rename_i hfree htodo
      cases h
      simp only [Bool.and_eq_true, Bool.not_eq_true'] at hfree
      exact .frame hfree.1 hfree.2 htodo
    · cases h
  | finish =>
    simp only [Guarded.step] at h
    split at h
    · rename_i hfree htodo
      cases h
      simp only [Bool.and_eq_true, Bool.not_eq_true'] at hfree
      exact .finish hfree.1 hfree.2 htodo
    · cases h
  | cancel =>
    simp only [Guarded.step] at h
    split at h
    · cases h
      exact .unscheduled ‹_› ‹_›
    · cases h
      exact .cancelled ‹_› ‹_›
    · cases h
  | pull =>
    simp only [Guarded.step] at h
    split at h
    · cases h
      exact .first ‹_›
    · cases h
      exact .next ‹_›
    · cases h
  | wake =>
    simp only [Guarded.step] at h
    split at h
    · cases h
      exact .woken ‹_› ‹_›
    · cases h
  | join =>
    simp only [Guarded.step] at h
    split at h
    · cases h
      exact .joined ‹_› ‹_›
    · cases h
  | abandon =>
    simp only [Guarded.step] at h
    split at h
    · cases h
      exact .left (Or.inl ‹_›)
    · cases h
      exact .left (Or.inr ‹_›)
    · cases h

/-! ## What the turns keep -/

/-- The record agrees with the buffer, the source and the statistics. -/
structure Recorded (frames : List AudioFrame) (s : Guarded ε) : Prop where
  buffer : s.ledger.queue = s.guard.buffer
  source : s.ledger.entered ++ s.todo = frames
  received : s.received = s.ledger.leftAs .delivered
  frames_in : s.guard.stats.frames_in = s.ledger.entered.length
  frames_out : s.guard.stats.frames_out = (s.ledger.leftAs .delivered).length
  frames_dropped : s.guard.stats.frames_dropped = (s.ledger.leftAs .shed).length

/-- The invariant of the stream: the record, and who waits for whom. -/
structure Sound (frames : List AudioFrame) (ending : Option ε) (s : Guarded ε) : Prop
    extends Recorded frames s where
  /-- A waiting consumer is woken exactly when there is something for it. -/
  woken : s.consumer = .waiting →
    (s.guard.arrived = true ↔ s.guard.buffer ≠ [] ∨ s.guard.closed = true)
  closed : s.consumer ≠ .abandoned → (s.guard.closed = true ↔ ∃ r, s.feeder = .done r)
  done : ∀ r, s.feeder = .done r →
    s.consumer = .abandoned ∨ (s.todo = [] ∧ r = outcome ending)
  created : s.feeder = .absent ↔ s.consumer = .created
  cancel : s.cancel = true → s.consumer = .abandoned
  joining : s.consumer = .joining → s.guard.buffer = [] ∧ s.guard.closed = true
  finished : ∀ r, s.consumer = .finished r → s.guard.buffer = [] ∧ s.feeder = .done r

variable {frames : List AudioFrame} {ending : Option ε} {s : Guarded ε}

/-- What `resume` does, by what is in the buffer. -/
theorem resume_cases (s : Guarded ε) :
    (∃ frame rest, s.guard.buffer = frame :: rest ∧ s.resume = { s with
      guard := { s.guard with
        stats.frames_out := s.guard.stats.frames_out + 1, buffer := rest }
      consumer := .holding
      ledger := s.ledger.leave 1 .delivered
      received := s.received ++ [frame] }) ∨
    (s.guard.buffer = [] ∧ s.guard.closed = true ∧ s.resume = { s with consumer := .joining }) ∨
    (s.guard.buffer = [] ∧ s.guard.closed = false ∧
      s.resume = { s with guard := { s.guard with arrived := false }, consumer := .waiting }) := by
  cases hb : s.guard.buffer with
  | cons frame rest =>
    refine Or.inl ⟨frame, rest, rfl, ?_⟩
    rw [Guarded.resume, BacklogGuard.drain_of_cons hb]
  | nil =>
    cases hc : s.guard.closed with
    | true =>
      refine Or.inr (Or.inl ⟨rfl, rfl, ?_⟩)
      rw [Guarded.resume, BacklogGuard.drain_of_closed hb hc]
    | false =>
      refine Or.inr (Or.inr ⟨rfl, rfl, ?_⟩)
      rw [Guarded.resume, BacklogGuard.drain_of_open hb hc]

theorem recorded_resume (h : Recorded frames s) : Recorded frames s.resume := by
  rcases resume_cases s with ⟨frame, rest, hb, heq⟩ | ⟨-, -, heq⟩ | ⟨-, -, heq⟩
  · rw [heq]
    have htake : s.ledger.queue.take 1 = [frame] := by rw [h.buffer, hb]; rfl
    refine ⟨?_, ?_, ?_, ?_, ?_, ?_⟩
    · simp [h.buffer, hb]
    · simpa using h.source
    · simp [h.received, htake]
    · simpa using h.frames_in
    · simp [h.frames_out, htake]
    · rw [Ledger.leftAs_leave_ne _ _ (by decide)]
      exact h.frames_dropped
  · rw [heq]
    exact ⟨h.buffer, h.source, h.received, h.frames_in, h.frames_out, h.frames_dropped⟩
  · rw [heq]
    exact ⟨h.buffer, h.source, h.received, h.frames_in, h.frames_out, h.frames_dropped⟩

theorem recorded_pushed {frame : AudioFrame} {rest : List AudioFrame} (h : Recorded frames s)
    (htodo : s.todo = frame :: rest) : Recorded frames (s.pushed frame rest) := by
  have hle := s.guard.shedBy_le frame
  have htake : ((s.ledger.enter frame).queue.take (s.guard.shedBy frame)).length =
      s.guard.shedBy frame := by
    rw [List.length_take, Ledger.enter_queue, h.buffer, List.length_append, List.length_singleton]
    omega
  refine ⟨?_, ?_, ?_, ?_, ?_, ?_⟩
  · simp [Guarded.pushed, BacklogGuard.push_buffer, h.buffer]
  · simp [Guarded.pushed, ← h.source, htodo]
  · rw [Guarded.pushed]
    simp only
    rw [Ledger.leftAs_leave_ne _ _ (by decide)]
    exact h.received
  · simp [Guarded.pushed, h.frames_in]
  · rw [Guarded.pushed]
    simp only
    rw [Ledger.leftAs_leave_ne _ _ (by decide), BacklogGuard.push_frames_out]
    exact h.frames_out
  · rw [Guarded.pushed]
    simp only
    rw [Ledger.leftAs_leave_self, List.length_append, htake, BacklogGuard.push_frames_dropped,
      h.frames_dropped, Ledger.leftAs_enter]

/-- A generator that runs on leaves a sound stream, when the feed task is
there, and is done exactly when the guard is closed. -/
theorem sound_resume (h : Recorded frames s)
    (hclosed : s.guard.closed = true ↔ ∃ r, s.feeder = .done r)
    (hdone : ∀ r, s.feeder = .done r → s.todo = [] ∧ r = outcome ending)
    (hfeeder : s.feeder ≠ .absent) (hcancel : s.cancel = false) : Sound frames ending s.resume := by
  have hrec := recorded_resume h
  rcases resume_cases s with ⟨frame, rest, hb, heq⟩ | ⟨hb, hc, heq⟩ | ⟨hb, hc, heq⟩
  · rw [heq] at hrec ⊢
    exact ⟨hrec, by simp, fun _ => hclosed, fun r hr => Or.inr (hdone r hr), by simp [hfeeder],
      by simp [hcancel], by simp, by simp⟩
  · rw [heq] at hrec ⊢
    exact ⟨hrec, by simp, fun _ => hclosed, fun r hr => Or.inr (hdone r hr), by simp [hfeeder],
      by simp [hcancel], fun _ => ⟨hb, hc⟩, by simp⟩
  · rw [heq] at hrec ⊢
    exact ⟨hrec, by simp [hb, hc], fun _ => hclosed, fun r hr => Or.inr (hdone r hr),
      by simp [hfeeder], by simp [hcancel], by simp, by simp⟩

/-- Once the generator is abandoned, only the record is left to keep. -/
theorem sound_abandoned (h : Recorded frames s) (hgone : s.consumer = .abandoned)
    (hfeeder : s.feeder ≠ .absent) : Sound frames ending s :=
  ⟨h, by simp [hgone], by simp [hgone], fun _ _ => Or.inl hgone, by simp [hgone, hfeeder],
    fun _ => hgone, by simp [hgone], by simp [hgone]⟩

theorem active_of_not_done {f : Feeder ε} (h : f.active = true) : f ≠ .absent ∧ ∀ r, f ≠ .done r := by
  cases f <;> simp_all [Feeder.active]

/-- A generator that holds a frame, or waits, can run on. -/
theorem sound_run_on (h : Sound frames ending s)
    (hc : s.consumer = .holding ∨ s.consumer = .waiting) : Sound frames ending s.resume := by
  have hgone : s.consumer ≠ .abandoned := by rcases hc with hc | hc <;> simp [hc]
  refine sound_resume h.toRecorded (h.closed hgone) ?_ ?_ ?_
  · exact fun r hr => (h.done r hr).resolve_left hgone
  · rw [Ne, h.created]
    rcases hc with hc | hc <;> simp [hc]
  · exact Bool.eq_false_iff.mpr fun hx => hgone (h.cancel hx)

/-- Every turn keeps the stream sound. -/
theorem sound_step {t : Guarded ε} {a : Turn} (h : Sound frames ending s)
    (hs : s.step ending a = some t) : Sound frames ending t := by
  cases took_of_step hs with
  | frame active free todo =>
    rename_i frame rest
    obtain ⟨hthere, hrunning⟩ := active_of_not_done active
    have hopen : s.consumer ≠ .abandoned → s.guard.closed = false := fun hx =>
      Bool.eq_false_iff.mpr fun hc => by
        obtain ⟨r, hr⟩ := (h.closed hx).mp hc
        exact hrunning r hr
    have hne : (s.guard.push frame).buffer ≠ [] := fun hnil => by
      have := s.guard.push_keeps_newest frame
      simp [hnil] at this
    refine ⟨recorded_pushed h.toRecorded todo, fun _ => by simp [Guarded.pushed, hne],
      fun hx => ?_, fun r hr => by simp [Guarded.pushed] at hr, ?_, ?_, fun hx => ?_, fun r hx => ?_⟩
    · simp [Guarded.pushed, hopen hx]
    · have := h.created
      simp only [hthere, false_iff] at this
      simpa [Guarded.pushed] using this
    · simp [Guarded.pushed, free]
    · have hc := (h.joining hx).2
      rw [hopen (by rw [show s.consumer = _ from hx]; simp)] at hc
      cases hc
    · exact absurd (h.finished r hx).2 (hrunning r)
  | finish active free todo =>
    obtain ⟨hthere, hrunning⟩ := active_of_not_done active
    refine ⟨⟨h.buffer, h.source, h.received, h.frames_in, h.frames_out, h.frames_dropped⟩,
      fun _ => by simp [Guarded.closed, BacklogGuard.close],
      fun _ => by simp [Guarded.closed, BacklogGuard.close], fun r hr => ?_, ?_, ?_, fun hx => ?_,
      fun r hx => ?_⟩
    · simp only [Guarded.closed, Feeder.done.injEq] at hr
      exact Or.inr ⟨todo, hr.symm⟩
    · have := h.created
      simp only [hthere, false_iff] at this
      simpa [Guarded.closed] using this
    · simp [Guarded.closed, free]
    · exact ⟨(h.joining hx).1, rfl⟩
    · exact absurd (h.finished r hx).2 (hrunning r)
  | unscheduled cancel feeder =>
    exact sound_abandoned
      ⟨h.buffer, h.source, h.received, h.frames_in, h.frames_out, h.frames_dropped⟩
      (h.cancel cancel) (by simp)
  | cancelled cancel feeder =>
    exact sound_abandoned
      ⟨h.buffer, h.source, h.received, h.frames_in, h.frames_out, h.frames_dropped⟩
      (h.cancel cancel) (by simp [Guarded.closed])
  | first consumer =>
    have hgone : s.consumer ≠ .abandoned := by simp [consumer]
    have habsent : s.feeder = .absent := h.created.mpr consumer
    have hclosed := h.closed hgone
    simp only [habsent, reduceCtorEq, exists_false, iff_false] at hclosed
    refine sound_resume ⟨h.buffer, h.source, h.received, h.frames_in, h.frames_out,
      h.frames_dropped⟩ ?_ ?_ ?_ ?_
    · simp [hclosed]
    · simp
    · simp
    · exact Bool.eq_false_iff.mpr fun hx => hgone (h.cancel hx)
  | next consumer => exact sound_run_on h (Or.inl consumer)
  | woken consumer arrived => exact sound_run_on h (Or.inr consumer)
  | joined consumer feeder =>
    have hgone : s.consumer ≠ .abandoned := by simp [consumer]
    have hcreated := h.created
    refine ⟨⟨h.buffer, h.source, h.received, h.frames_in, h.frames_out, h.frames_dropped⟩,
      by simp, fun _ => h.closed hgone,
      fun r hr => Or.inr ((h.done r hr).resolve_left hgone), by simp [feeder],
      fun hx => absurd (h.cancel hx) hgone, by simp, fun r hr => ?_⟩
    cases hr
    exact ⟨(h.joining consumer).1, feeder⟩
  | left consumer =>
    have hcreated : s.feeder ≠ .absent := fun hx => by
      rw [h.created] at hx
      rcases consumer with hc | hc <;> simp [hc] at hx
    exact sound_abandoned
      ⟨h.buffer, h.source, h.received, h.frames_in, h.frames_out, h.frames_dropped⟩ rfl hcreated

/-! ## What every run of turns does -/

theorem sound_start (max_lag_s recover_to_s warn_lag_s : ℚ) (hvalid : recover_to_s < max_lag_s)
    (frames : List AudioFrame) (ending : Option ε) : Sound frames ending
      (guarded (.fresh max_lag_s recover_to_s warn_lag_s hvalid) frames ending).start := by
  refine ⟨⟨rfl, rfl, rfl, rfl, rfl, rfl⟩, ?_, ?_, ?_, ?_, ?_, ?_, ?_⟩ <;>
    simp [guarded, BacklogGuard.fresh]

/-- The turns that a consumer has ahead of it, without the frames. -/
def Consumer.ahead : Consumer ε → Nat
  | .created => 4
  | .holding => 3
  | .waiting => 2
  | .joining => 1
  | .finished _ | .abandoned => 0

def Feeder.ahead : Feeder ε → Nat
  | .done _ => 0
  | _ => 1

@[simp] theorem ahead_created : (Consumer.created : Consumer ε).ahead = 4 := rfl
@[simp] theorem ahead_holding : (Consumer.holding : Consumer ε).ahead = 3 := rfl
@[simp] theorem ahead_waiting : (Consumer.waiting : Consumer ε).ahead = 2 := rfl
@[simp] theorem ahead_joining : (Consumer.joining : Consumer ε).ahead = 1 := rfl
@[simp] theorem ahead_finished (r : Ended ε) : (Consumer.finished r).ahead = 0 := rfl
@[simp] theorem ahead_abandoned : (Consumer.abandoned : Consumer ε).ahead = 0 := rfl
@[simp] theorem ahead_done (r : Ended ε) : (Feeder.done r).ahead = 0 := rfl

theorem ahead_of_active {f : Feeder ε} (h : f.active = true) : f.ahead = 1 := by
  cases f <;> simp_all [Feeder.active, Feeder.ahead]

/-- A bound on the turns that are left. -/
def Guarded.ahead (s : Guarded ε) : Nat :=
  3 * s.todo.length + 2 * s.guard.buffer.length + s.consumer.ahead + s.feeder.ahead

theorem resume_ahead (hc : s.consumer.ahead = 3 ∨ s.consumer.ahead = 4 ∨
    (s.consumer.ahead = 2 ∧ (s.guard.buffer ≠ [] ∨ s.guard.closed = true))) :
    s.resume.ahead < s.ahead := by
  unfold Guarded.ahead
  rcases resume_cases s with ⟨frame, rest, hb, heq⟩ | ⟨hb, -, heq⟩ | ⟨hb, hopen, heq⟩
  · rw [heq, hb]
    simp only [ahead_holding, List.length_cons]
    omega
  · rw [heq]
    simp only [ahead_joining]
    omega
  · rw [heq]
    simp only [ahead_waiting]
    simp only [hb, hopen, ne_eq, not_true, Bool.false_eq_true, or_false, and_false] at hc
    omega

/-- Every turn of a sound stream brings it nearer to its end. -/
theorem ahead_step {t : Guarded ε} {a : Turn} (h : Sound frames ending s)
    (hs : s.step ending a = some t) : t.ahead < s.ahead := by
  cases took_of_step hs with
  | frame active free todo =>
    rename_i frame rest
    have hlen : (s.guard.push frame).buffer.length ≤ s.guard.buffer.length + 1 := by
      rw [BacklogGuard.push_buffer, List.length_drop, List.length_append, List.length_singleton]
      omega
    have hrunning : (Feeder.running : Feeder ε).ahead = 1 := rfl
    simp only [Guarded.ahead, Guarded.pushed, todo, List.length_cons, hrunning,
      ahead_of_active active]
    omega
  | finish active free todo =>
    simp only [Guarded.ahead, Guarded.closed, BacklogGuard.close, ahead_done,
      ahead_of_active active]
    omega
  | unscheduled cancel feeder =>
    have hactive : s.feeder.ahead = 1 := ahead_of_active (by rw [feeder]; rfl)
    simp only [Guarded.ahead, ahead_done, hactive]
    omega
  | cancelled cancel feeder =>
    have hactive : s.feeder.ahead = 1 := ahead_of_active (by rw [feeder]; rfl)
    simp only [Guarded.ahead, Guarded.closed, BacklogGuard.close, ahead_done, hactive]
    omega
  | first consumer =>
    have hlt := resume_ahead (s := { s with feeder := .scheduled })
      (Or.inr (Or.inl (by simp [consumer])))
    have hscheduled : (Feeder.scheduled : Feeder ε).ahead = 1 := rfl
    have habsent : s.feeder.ahead = 1 := by rw [h.created.mpr consumer]; rfl
    simp only [Guarded.ahead, hscheduled, habsent] at hlt ⊢
    omega
  | next consumer => exact resume_ahead (Or.inl (by rw [consumer]; rfl))
  | woken consumer arrived =>
    exact resume_ahead (Or.inr (Or.inr ⟨by rw [consumer]; rfl, (h.woken consumer).mp arrived⟩))
  | joined consumer feeder =>
    simp only [Guarded.ahead, consumer, ahead_joining, ahead_finished]
    omega
  | left consumer =>
    have hpos : 0 < s.consumer.ahead := by rcases consumer with hc | hc <;> simp [hc]
    simp only [Guarded.ahead, ahead_abandoned]
    omega

/-- A consumer that is not at an end, or somebody for it, can take a turn. -/
theorem turn_of_sound (h : Sound frames ending s) (hgone : s.consumer ≠ .abandoned)
    (hgoing : ∀ r, s.consumer ≠ .finished r) :
    ∃ a t, a ≠ .abandon ∧ s.step ending a = some t := by
  have hfree : s.cancel = false := Bool.eq_false_iff.mpr fun hx => hgone (h.cancel hx)
  cases hc : s.consumer with
  | created => exact ⟨.pull, _, by decide, by simp only [Guarded.step, hc]; rfl⟩
  | holding => exact ⟨.pull, _, by decide, by simp only [Guarded.step, hc]; rfl⟩
  | joining =>
    obtain ⟨r, hr⟩ := (h.closed hgone).mp (h.joining hc).2
    exact ⟨.join, _, by decide, by simp only [Guarded.step, hc, hr]; rfl⟩
  | finished r => exact absurd hc (hgoing r)
  | abandoned => exact absurd hc hgone
  | waiting =>
    by_cases harrived : s.guard.arrived = true
    · exact ⟨.wake, _, by decide, by simp only [Guarded.step, hc, harrived]; rfl⟩
    · -- nothing has arrived, so the feed task is not done yet, and it runs on
      have hopen : ¬ s.guard.closed = true := fun hx => harrived ((h.woken hc).mpr (Or.inr hx))
      rw [h.closed hgone] at hopen
      have hthere : s.feeder ≠ .absent := by rw [Ne, h.created, hc]; simp
      have hactive : s.feeder.active = true := by
        cases hf : s.feeder with
        | absent => exact absurd hf hthere
        | scheduled => rfl
        | running => rfl
        | done r => exact absurd ⟨r, hf⟩ hopen
      cases ht : s.todo with
      | cons frame rest =>
        exact ⟨.frame, _, by decide, by
          simp only [Guarded.step, hactive, hfree, ht, Bool.not_false, Bool.and_self]
          rfl⟩
      | nil =>
        exact ⟨.finish, _, by decide, by
          simp only [Guarded.step, hactive, hfree, ht, Bool.not_false, Bool.and_self]
          rfl⟩

/-- A frame leaves delivered or shed. -/
theorem length_left (left : List (AudioFrame × Fate)) :
    left.length = (left.filter fun x => x.2 = .delivered).length +
      (left.filter fun x => x.2 = .shed).length := by
  induction left with
  | nil => rfl
  | cons x left ih =>
    obtain ⟨frame, fate⟩ := x
    cases fate <;> simp only [List.length_cons, List.filter_cons, reduceCtorEq, decide_true,
      decide_false, if_true, Bool.false_eq_true, if_false] <;> omega

/-- Every frame is in the buffer, or was delivered, or was dropped. -/
theorem frames_accounted (h : Recorded frames s) :
    s.guard.stats.frames_in =
      s.guard.stats.frames_out + s.guard.stats.frames_dropped + s.guard.buffer.length := by
  have hleft := length_left s.ledger.left
  rw [h.frames_in, h.frames_out, h.frames_dropped, ← h.buffer, Ledger.entered, Ledger.leftAs,
    Ledger.leftAs]
  simp only [List.length_append, List.length_map]
  omega

/-- Every state of every run agrees with its record. -/
theorem recorded_of_run {max_lag_s recover_to_s warn_lag_s : ℚ} {hvalid : recover_to_s < max_lag_s}
    {ls : List Turn}
    (hr : (guarded (.fresh max_lag_s recover_to_s warn_lag_s hvalid) frames ending).run ls =
      some s) : Recorded frames s :=
  (Machine.invariant _ (sound_start max_lag_s recover_to_s warn_lag_s hvalid frames ending)
    (fun _ _ _ hp hs => sound_step hp hs) ⟨ls, hr⟩).toRecorded

/-- The stream delivers in push order, each once, exactly the frames that were
not shed, and ends as its source did, after every turn order. -/
theorem the_guarded_stream_delivers_what_was_not_shed (max_lag_s recover_to_s warn_lag_s : ℚ)
    (hvalid : recover_to_s < max_lag_s) (frames : List AudioFrame) (ending : Option ε)
    {ls : List Turn} {s : Guarded ε}
    (hr : (guarded (.fresh max_lag_s recover_to_s warn_lag_s hvalid) frames ending).run ls =
      some s) :
    -- what was pushed is what left, delivered or shed, and then the buffer
    s.ledger.entered ++ s.todo = frames ∧ s.ledger.queue = s.guard.buffer ∧
      s.received = s.ledger.leftAs .delivered ∧
      s.guard.stats.frames_dropped = (s.ledger.leftAs .shed).length ∧
    s.guard.stats.frames_in =
      s.guard.stats.frames_out + s.guard.stats.frames_dropped + s.guard.buffer.length ∧
    -- the end of the stream is the end of the source, after the last frame
    (∀ r, s.consumer = .finished r →
      r = outcome ending ∧ s.todo = [] ∧ s.guard.buffer = []) ∧
    -- a push keeps its own frame
    (∀ t, s.step ending .frame = some t → ∃ frame,
      t.ledger.entered = s.ledger.entered ++ [frame] ∧ t.guard.buffer.getLast? = some frame) ∧
    -- no lost wake-up
    (s.consumer = .waiting → s.guard.buffer ≠ [] ∨ s.guard.closed = true →
      s.guard.arrived = true) ∧
    -- a consumer that stays gets to the end: some turn is left, and turns run out
    (s.consumer ≠ .abandoned → (∀ r, s.consumer ≠ .finished r) →
      ∃ a t, a ≠ .abandon ∧ s.step ending a = some t) ∧
    ls.length ≤ 3 * frames.length + 5 := by
  have hstart := sound_start max_lag_s recover_to_s warn_lag_s hvalid frames ending
  have h : Sound frames ending s :=
    Machine.invariant _ hstart (fun _ _ _ hp hs => sound_step hp hs) ⟨ls, hr⟩
  refine ⟨h.source, h.buffer, h.received, h.frames_dropped, frames_accounted h.toRecorded,
    fun r hf => ?_, fun t ht => ?_, fun hw hx => (h.woken hw).mpr hx, turn_of_sound h, ?_⟩
  · obtain ⟨hb, hd⟩ := h.finished r hf
    obtain ⟨htodo, hout⟩ := (h.done r hd).resolve_left (by rw [hf]; simp)
    exact ⟨hout, htodo, hb⟩
  · cases took_of_step ht with
    | frame active free todo =>
      exact ⟨_, by simp [Guarded.pushed], s.guard.push_keeps_newest _⟩
  · have hle := Machine.length_le_of_measure _ Guarded.ahead (fun _ _ _ hp hs => sound_step hp hs)
      (fun _ _ _ hp hs => ahead_step hp hs) hstart hr
    have hbound : (guarded (.fresh max_lag_s recover_to_s warn_lag_s hvalid) frames ending).start.ahead
        = 3 * frames.length + 5 := by
      simp [guarded, Guarded.ahead, BacklogGuard.fresh, Consumer.ahead, Feeder.ahead]
    omega

/-- A second of audio at one sample a second. -/
def second (t_audio : ℚ) : AudioFrame := ⟨[0, 0], 1, by decide, t_audio, t_audio⟩

/-- A source that raises after three frames, which the consumer meets late. -/
theorem the_guarded_stream_delivers_a_lost_source :
    ∃ s, (guarded (.fresh 3 1 1 (by norm_num)) [second 0, second 1, second 2] (some "lost")).run
        [.pull, .frame, .frame, .frame, .wake, .finish, .pull, .join] = some s ∧
      s.consumer = .finished (.raised "lost") ∧ s.received = [second 2] ∧
      s.guard.stats.frames_in =
        s.guard.stats.frames_out + s.guard.stats.frames_dropped + s.guard.buffer.length := by
  have hrun : ((guarded (.fresh 3 1 1 (by norm_num)) [second 0, second 1, second 2]
      (some "lost")).run [.pull, .frame, .frame, .frame, .wake, .finish, .pull, .join]).map
        (fun s => (s.consumer, s.received)) = some (.finished (.raised "lost"), [second 2]) := by
    decide +kernel
  obtain ⟨s, hs, heq⟩ := Option.map_eq_some_iff.mp hrun
  obtain ⟨-, -, -, -, hcount, -⟩ := the_guarded_stream_delivers_what_was_not_shed 3 1 1
    (by norm_num) [second 0, second 1, second 2] (some "lost") hs
  rw [Prod.mk.injEq] at heq
  exact ⟨s, hs, heq.1, heq.2, hcount⟩

end lad_translate.backpressure
