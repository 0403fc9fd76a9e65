-- The clean-up of a session: a `run` that is over has stopped its workers,
-- closed the room and ended the session in the store exactly when no call
-- went wrong outside of the blocks that are guarded.
import LadTranslate.Dispatch

open machines

namespace lad_translate.pipeline

open phrase_chunker config latency drift

/-- The three clean-ups: every worker that was started is stopped, the room is
closed, and the session is ended once in the store. -/
def CleanedUp (s : Session) : Prop :=
  (∀ l w, s.workers l = some w → w.pc = .returned) ∧ 1 ≤ s.closed ∧ s.settled.length = 1

/-- What no block of `run` guards against: a start-up call or `room.close`
that raises, a worker that is cancelled by a call of its own, and a pump that
is cancelled by a call of its own before `run` cancels it. -/
def Breaks (s : Session) : Event → Prop
  | .main (.published (some _)) => True
  | .main (.markedLive (some _)) => True
  | .main (.closed (some _)) => True
  | .pump event => event.Cancels ∧ s.main ≠ .cancelling
  | .worker language event => ∃ w, s.workers language = some w ∧ event.Cancels w
  | _ => False

/-! ## The trouble that a break leaves -/

/-- A worker died. -/
def Died (s : Session) : Prop := ∃ l w, s.workers l = some w ∧ w.pc = .died

/-- `run` will not settle, or it is over and did not. -/
def Lost (s : Session) : MainPc → Prop
  | .racing => s.pump = .ended (some .cancelled)
  | .stopping _ raising => raising ≠ none
  | .closing raising => raising ≠ none
  | .finished _ => s.closed = 0 ∨ s.settled = []
  | _ => False

def Troubled (s : Session) : Prop := Died s ∨ Lost s s.main

section

variable {setup : Setup} {s t : Session}

/-- A run that is over is cleaned up when no trouble is left. -/
theorem cleaned_up_iff_untroubled (hs : Sound setup s) {result : Except Raised SessionOutcome}
    (hmain : s.main = .finished result) : CleanedUp s ↔ ¬ Troubled s := by
  have hstage := hs.stage
  rw [hmain] at hstage
  unfold Troubled CleanedUp
  rw [hmain]
  constructor
  · rintro ⟨hreturned, hclosed, hsettled⟩ (⟨l, w, hw, hdied⟩ | hlost)
    · have := hreturned l w hw
      simp [hdied] at this
    · rcases hlost with hlost | hlost
      · omega
      · simp [hlost] at hsettled
  · intro hfine
    rcases hstage with ⟨-, huntidy⟩ | ⟨-, hdied, -⟩ | ⟨⟨-, hhome, hclosed⟩, hlength⟩
    · exact absurd (.inr (.inl huntidy.1)) hfine
    · exact absurd (.inl hdied) hfine
    · have hne : s.settled ≠ [] := fun h => hfine (.inr (.inr h))
      have hpos := List.length_pos_iff.mpr hne
      refine ⟨?_, by omega, by omega⟩
      intro l w hw
      obtain ⟨v, hv, hreturned, -⟩ := hhome l (hs.languages l w hw)
      rw [hw] at hv
      cases hv
      exact hreturned

theorem died_congr (h : t.workers = s.workers) : Died t ↔ Died s := by
  unfold Died
  rw [h]

/-- A worker that moves adds its own death, and takes no other one back. -/
theorem died_update {language : String} {w w' : Worker} (hw : s.workers language = some w)
    (hmoves : Moves setup language w w')
    (ht : t.workers = Function.update s.workers language (some w')) :
    Died t ↔ Died s ∨ w'.pc = .died := by
  unfold Died
  rw [ht]
  constructor
  · rintro ⟨l, v, hv, hpc⟩
    by_cases hl : l = language
    · subst hl
      simp only [Function.update_self, Option.some.injEq] at hv
      exact .inr (hv ▸ hpc)
    · exact .inl ⟨l, v, by simpa [Function.update_of_ne hl] using hv, hpc⟩
  · rintro (⟨l, v, hv, hpc⟩ | hpc)
    · have hl : l ≠ language := by
        rintro rfl
        rw [hw] at hv
        cases hv
        exact hmoves.not_died hpc
      exact ⟨l, v, by simp [Function.update_of_ne hl, hv], hpc⟩
    · exact ⟨language, w', by simp, hpc⟩

/-- To tell the next worker to stop leaves the trouble that there is, and what
the `finally` block has to raise. -/
theorem troubled_stopNext (raising : Option Raised) (left : List String) :
    Troubled (s.stopNext raising left) ↔ Died s ∨ raising ≠ none := by
  cases left with
  | nil => exact Iff.rfl
  | cons language left =>
    have hdied : Died (s.stopNext raising (language :: left)) ↔ Died s := by
      constructor
      · rintro ⟨l, w, hw, hpc⟩
        by_cases hl : l = language
        · subst hl
          simp only [Session.stopNext, Function.update_self] at hw
          obtain ⟨v, hv, rfl⟩ := Option.map_eq_some_iff.mp hw
          exact ⟨l, v, hv, hpc⟩
        · exact ⟨l, w, by simpa [Session.stopNext, hl] using hw, hpc⟩
      · rintro ⟨l, w, hw, hpc⟩
        by_cases hl : l = language
        · subst hl
          exact ⟨l, w.put none, by simp [Session.stopNext, hw], hpc⟩
        · exact ⟨l, w, by simpa [Session.stopNext, hl] using hw, hpc⟩
    exact or_congr hdied Iff.rfl

theorem troubled_wound (raised : Option Raised) :
    Troubled (s.wound setup raised) ↔ Died s ∨ raised = some .cancelled := by
  obtain ⟨failure, raising, heq, hraising⟩ := Session.wound_eq setup s raised
  rw [heq, troubled_stopNext, hraising]
  exact or_congr (died_congr rfl) Iff.rfl

/-- A run that called `end_session` is over without new trouble. -/
theorem troubled_settling (hs : Sound setup s) (hmain : s.main = .settling) {main : MainPc}
    {result : Except Raised SessionOutcome} (hresult : main = .finished result) :
    Troubled { s with main } ↔ Troubled s := by
  have hstage := hs.stage
  rw [hmain] at hstage
  have hlost : ¬ (s.closed = 0 ∨ s.settled = []) := by simp [hstage.1.2.2, hstage.2]
  simp only [Troubled, hmain, hresult, Lost, or_false, hlost]
  exact died_congr rfl

/-- A step of `run` leaves trouble exactly when there was trouble, or when it breaks. -/
theorem troubled_main (hstore : setup.store = true) (hs : Sound setup s) {event : MainEvent}
    (hdid : MainDid setup s event t) : Troubled t ↔ Troubled s ∨ Breaks s (.main event) := by
  have hstage := hs.stage
  cases hdid with
  | publishFailed hmain =>
    rw [hmain] at hstage
    exact iff_of_true (.inr (.inl hstage.2.2.1)) (.inr trivial)
  | published hmain hstore =>
    rw [hmain] at hstage
    have hnone : ¬ Died s := fun ⟨l, w, hw, _⟩ => by simp [hstage.2.1 l] at hw
    have hfresh : ¬ Died (s.startWorkers setup) := by
      rintro ⟨l, w, hw, hpc⟩
      simp only [Session.startWorkers] at hw
      split at hw
      · cases hw
        cases hpc
      · cases hw
    refine iff_of_false ?_ ?_
    · rintro (h | h)
      · exact hfresh h
      · exact h
    · rintro ((h | h) | h)
      · exact hnone h
      · rw [hmain] at h
        exact h
      · exact h
  | publishedUnstored hmain hunstored => simp [hstore] at hunstored
  | markFailed hmain =>
    rw [hmain] at hstage
    exact iff_of_true (.inr (.inl hstage.2.2.1)) (.inr trivial)
  | marked hmain =>
    simp only [Troubled, hmain, Breaks, Lost, Session.startPump, or_false, reduceCtorEq]
    exact died_congr rfl
  | raced hmain hpump =>
    rw [troubled_wound]
    simp [Troubled, hmain, Breaks, Lost, hpump]
  | timedOut hmain hpump =>
    simp only [Troubled, hmain, Breaks, Lost, hpump, or_false, reduceCtorEq]
    exact died_congr rfl
  | joined hmain hpump hsuppressed =>
    rw [troubled_wound]
    simp [Troubled, hmain, Breaks, Lost, hsuppressed]
  | stopped hmain hw hpc =>
    rw [troubled_stopNext]
    simp [Troubled, hmain, Breaks, Lost]
  | stopFailed hmain hw hpc => exact iff_of_true (.inl ⟨_, _, hw, hpc⟩) (.inl (.inl ⟨_, _, hw, hpc⟩))
  | closeFailed hmain =>
    rw [hmain] at hstage
    exact iff_of_true (.inr (.inr hstage.2)) (.inr trivial)
  | closedRaising hmain =>
    rw [hmain] at hstage
    refine iff_of_true (.inr (.inr hstage.2)) (.inl (.inr ?_))
    rw [hmain]
    exact Option.some_ne_none _
  | closed hmain =>
    rw [Session.settle, if_pos hstore]
    simp only [Troubled, hmain, Breaks, Lost, or_false, ne_eq, not_true_eq_false]
    exact died_congr rfl
  | settled hmain => exact (troubled_settling hs hmain rfl).trans (by simp [Breaks])
  | settleFailed hmain => exact (troubled_settling hs hmain rfl).trans (by simp [Breaks])

/-- The same for a step of the pump. -/
theorem troubled_pump [Unicode] {event : PumpEvent} {p : Pump} {pump : PumpTask}
    (hs : Sound setup s) (hpump : s.pump = .active p) (hdid : Session.PumpDid s p pump t)
    (hcancels : pump = .ended (some .cancelled) ↔ event.Cancels) :
    Troubled t ↔ Troubled s ∨ Breaks s (.pump event) := by
  have hkept : t.main = s.main ∧ t.pump = pump ∧ (Died t ↔ Died s) := by
    cases hdid with
    | rests => exact ⟨rfl, rfl, died_congr rfl⟩
    | dispatches hpc hsubmitted =>
      refine ⟨rfl, rfl, ?_⟩
      unfold Died
      constructor
      · rintro ⟨l, w, hw, hpc⟩
        rcases hsubmitted l with ⟨hsame, -⟩ | ⟨v, text, hv, hput, -⟩
        · exact ⟨l, w, hsame ▸ hw, hpc⟩
        · rw [hput] at hw
          cases hw
          exact ⟨l, v, hv, hpc⟩
      · rintro ⟨l, w, hw, hpc⟩
        rcases hsubmitted l with ⟨hsame, -⟩ | ⟨v, text, hv, hput, -⟩
        · exact ⟨l, w, hsame.trans hw, hpc⟩
        · rw [hv] at hw
          cases hw
          exact ⟨l, _, hput, hpc⟩
  obtain ⟨hmain', rfl, hdied⟩ := hkept
  obtain ⟨hmain | hmain, -, -⟩ := stage_active hs.stage hpump
  · simp only [Troubled, hmain', hmain, Lost, Breaks, hpump, hdied, hcancels]
    simp
  · simp only [Troubled, hmain', hmain, Lost, Breaks, hdied]
    simp

/-- The same for every step. -/
theorem troubled_step [Unicode] (hstore : setup.store = true) (hs : Sound setup s) {event : Event}
    (h : (sessionRuns setup).step s event = some t) : Troubled t ↔ Troubled s ∨ Breaks s event := by
  cases step_did hs h with
  | main hdid => exact troubled_main hstore hs hdid
  | pump hpump hdid hcancels => exact troubled_pump hs hpump hdid hcancels
  | @worker language event w w' recorder drift rows hw hmoves hdied hcovered =>
    have hbreaks : Breaks s (.worker language event) ↔ w'.pc = .died := by
      rw [hdied]
      constructor
      · rintro ⟨v, hv, hcancels⟩
        rw [hw] at hv
        cases hv
        exact hcancels
      · exact fun hcancels => ⟨w, hw, hcancels⟩
    rw [hbreaks]
    unfold Troubled
    rw [died_update hw hmoves rfl, or_right_comm]
    exact Iff.rfl
  | watch => exact (or_false _).symm ▸ Iff.rfl
  | frame => exact (or_false _).symm ▸ Iff.rfl

end

/-! ## The run as a whole -/

section

variable [Unicode]

end

open ascii

/-- A talk in which nobody speaks: the source ends, and the worker stops. -/
def quietTalk : List Event :=
  [.main (.published none), .main (.markedLive none), .pump .sourceEnded, .main .raced,
    .worker "fr" (.took (.ok 0)), .main .stopped]

end lad_translate.pipeline
