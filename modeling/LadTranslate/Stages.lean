-- The stages of a session: in each of them, what the pump and the workers are
-- up to, and what was cleaned up. Every state of every run is at its stage.
import LadTranslate.Tasks

open machines

namespace lad_translate.pipeline

open phrase_chunker config latency drift

/-! ## The stages of a worker -/

/-- Nobody told the worker to stop. -/
def Unasked (w : Worker) : Prop := none ∉ w.queue ∧ w.pc ≠ .returned

/-- The worker is told to stop, and the sentinel is the last thing in its queue. -/
def Asked (w : Worker) : Prop :=
  w.pc ≠ .returned ∧ ∃ phrases, none ∉ phrases ∧ w.queue = phrases ++ [none]

/-- The worker took the sentinel, and left nothing in its queue. -/
def Home (w : Worker) : Prop := w.pc = .returned ∧ w.queue = []

theorem unasked_fresh : Unasked .fresh := by simp [Unasked, Worker.fresh]

theorem Unasked.put {w : Worker} (h : Unasked w) (phrase : Phrase) :
    Unasked (w.put (some phrase)) := by
  simpa [Unasked, Worker.put] using h

theorem Unasked.asked {w : Worker} (h : Unasked w) : Asked (w.put none) :=
  ⟨h.2, w.queue, h.1, rfl⟩

variable {setup : Setup} {language : String} {w w' : Worker}

theorem Unasked.moves (h : Unasked w) (hmoves : Moves setup language w w') : Unasked w' := by
  cases hmoves with
  | stops hpc hqueue => exact absurd (hqueue ▸ List.mem_cons_self) h.1
  | takes hpc hqueue hleft => exact ⟨fun hmem => h.1 (hqueue ▸ List.mem_cons_of_mem _ hmem), hleft⟩
  | goesOn hpc hrunning hleft => exact ⟨h.1, hleft⟩

theorem Asked.moves (h : Asked w) (hmoves : Moves setup language w w') : Asked w' ∨ Home w' := by
  obtain ⟨-, phrases, hnone, hphrases⟩ := h
  cases hmoves with
  | stops hpc hqueue =>
    rw [hphrases] at hqueue
    cases phrases with
    | nil => exact .inr ⟨rfl, (List.cons.inj hqueue).2.symm⟩
    | cons phrase phrases => exact absurd ((List.cons.inj hqueue).1 ▸ List.mem_cons_self) hnone
  | takes hpc hqueue hleft =>
    rw [hphrases] at hqueue
    cases phrases with
    | nil => cases (List.cons.inj hqueue).1
    | cons phrase phrases =>
      exact .inl ⟨hleft, phrases, fun hmem => hnone (List.mem_cons_of_mem _ hmem),
        (List.cons.inj hqueue).2.symm⟩
  | goesOn hpc hrunning hleft => exact .inl ⟨hleft, phrases, hnone, hphrases⟩

theorem Moves.not_home (hmoves : Moves setup language w w') : ¬ Home w := by
  intro h
  cases hmoves with
  | stops hpc hqueue => simp [h.1] at hpc
  | takes hpc hqueue hleft => simp [h.1] at hpc
  | goesOn hpc hrunning hleft => exact hrunning.1 h.1

/-- A worker that died does not move. -/
theorem Moves.not_died (hmoves : Moves setup language w w') : w.pc ≠ .died := by
  cases hmoves with
  | stops hpc hqueue => simp [hpc]
  | takes hpc hqueue hleft => simp [hpc]
  | goesOn hpc hrunning hleft => exact hrunning.2

/-! ## The stages of a session -/

/-- Each of these languages has a worker of this kind. -/
def Session.Each (s : Session) (languages : List String) (P : Worker → Prop) : Prop :=
  ∀ l ∈ languages, ∃ w, s.workers l = some w ∧ P w

/-- The pump is over. -/
def PumpTask.Over (pump : PumpTask) : Prop := ∃ raised, pump = .ended raised

/-- The loop of `_shutdown`: the workers before it are home, the first one
left is told to stop, and the others are not. -/
def Stopping (setup : Setup) (s : Session) (left : List String) : Prop :=
  ∃ home language rest, left = language :: rest ∧
    setup.config.targetCodes = home ++ language :: rest ∧ s.Each home Home ∧
    s.Each [language] (fun w => Asked w ∨ Home w) ∧ s.Each rest Unasked

/-- Nothing is cleaned up. -/
def Untidy (s : Session) : Prop := s.closed = 0 ∧ s.settled = []

/-- Every worker is home, and the room is closed once. -/
def Tidy (setup : Setup) (s : Session) : Prop :=
  s.pump.Over ∧ s.Each setup.config.targetCodes Home ∧ s.closed = 1

/-- What holds where `run` waits. -/
def Stage (setup : Setup) (s : Session) : MainPc → Prop
  | .publishing => s.pump = .absent ∧ (∀ l, s.workers l = none) ∧ Untidy s
  | .marking => s.pump = .absent ∧ s.Each setup.config.targetCodes Unasked ∧ Untidy s
  | .racing | .cancelling =>
    s.pump ≠ .absent ∧ s.Each setup.config.targetCodes Unasked ∧ Untidy s
  | .stopping left _ => s.pump.Over ∧ Stopping setup s left ∧ Untidy s
  | .closing _ => Tidy setup s ∧ s.settled = []
  | .settling => Tidy setup s ∧ s.settled = [s.failure]
  | .finished _ =>
    -- the start failed, a worker died, or the room was closed
    (s.pump = .absent ∧ Untidy s) ∨
      (s.pump.Over ∧ (∃ l w, s.workers l = some w ∧ w.pc = .died) ∧ Untidy s) ∨
      (Tidy setup s ∧ s.settled.length ≤ 1)

/-- What holds in every state of every run. -/
structure Sound (setup : Setup) (s : Session) : Prop where
  covered : Covered setup s
  languages : ∀ l w, s.workers l = some w → l ∈ setup.config.targetCodes
  stage : Stage setup s s.main

section

variable {s t : Session} {languages : List String} {P Q : Worker → Prop}

theorem each_append_iff {xs ys : List String} :
    s.Each (xs ++ ys) P ↔ s.Each xs P ∧ s.Each ys P := by
  simp only [Session.Each, List.mem_append, or_imp, forall_and]

/-- The workers of some languages, when the worker of one language is changed. -/
theorem each_update (h : s.Each languages P) (hw : s.workers language = some w)
    (ht : t.workers = Function.update s.workers language (some w')) (hP : P w → P w') :
    t.Each languages P := by
  intro l hl
  obtain ⟨v, hv, hPv⟩ := h l hl
  by_cases hlanguage : l = language
  · subst hlanguage
    rw [hw] at hv
    cases hv
    exact ⟨w', by simp [ht], hP hPv⟩
  · exact ⟨v, by simp [ht, hlanguage, hv], hPv⟩

/-- A worker that is home does not move. -/
theorem each_home (h : s.Each languages Home) (hw : s.workers language = some w)
    (ht : t.workers = Function.update s.workers language (some w'))
    (hmoves : Moves setup language w w') : t.Each languages Home :=
  each_update h hw ht fun hhome => absurd hhome hmoves.not_home

/-- Every worker of the languages got at most a phrase. -/
theorem each_submitted {chunk : PhraseChunk} (h : s.Each languages Unasked)
    (hsubmitted : Submitted chunk s t) : t.Each languages Unasked := by
  intro l hl
  obtain ⟨v, hv, hunasked⟩ := h l hl
  rcases hsubmitted l with ⟨hsame, -⟩ | ⟨w, text, hw, hput, -⟩
  · exact ⟨v, hsame.trans hv, hunasked⟩
  · rw [hw] at hv
    cases hv
    exact ⟨_, hput, hunasked.put _⟩

end

/-! ## The stages are kept -/

section

variable {s t : Session}

theorem sound_start (setup : Setup) : Sound setup (.entered setup) where
  covered := DriftController.covers_new _ _ _
  languages l w hw := by cases hw
  stage := ⟨rfl, fun _ => rfl, rfl, rfl⟩

/-- The next worker is told to stop, or the room is closed. -/
theorem stage_stopNext {home left : List String} (raising : Option Raised) (hover : s.pump.Over)
    (hall : setup.config.targetCodes = home ++ left) (hhome : s.Each home Home)
    (hleft : s.Each left Unasked) (huntidy : Untidy s) :
    Stage setup (s.stopNext raising left) (s.stopNext raising left).main := by
  cases left with
  | nil =>
    rw [List.append_nil] at hall
    refine ⟨⟨hover, hall ▸ hhome, ?_⟩, huntidy.2⟩
    simp [Session.stopNext, huntidy.1]
  | cons language rest =>
    have hnodup := setup.config.targetCodes_nodup
    rw [hall, List.nodup_append] at hnodup
    have hothers : ∀ l, l ≠ language →
        (s.stopNext raising (language :: rest)).workers l = s.workers l := by
      intro l hl
      simp [Session.stopNext, hl]
    refine ⟨hover, ⟨home, language, rest, rfl, hall, ?_, ?_, ?_⟩, huntidy⟩
    · intro l hl
      rw [hothers l (hnodup.2.2 l hl language List.mem_cons_self)]
      exact hhome l hl
    · intro l hl
      obtain rfl := List.mem_singleton.mp hl
      obtain ⟨w, hw, hunasked⟩ := hleft l List.mem_cons_self
      exact ⟨w.put none, by simp [Session.stopNext, hw], .inl hunasked.asked⟩
    · intro l hl
      have hne : l ≠ language := fun h => (List.nodup_cons.mp hnodup.2.1).1 (h ▸ hl)
      rw [hothers l hne]
      exact hleft l (List.mem_cons_of_mem _ hl)

theorem stage_wound (raised : Option Raised) (hover : s.pump.Over)
    (hunasked : s.Each setup.config.targetCodes Unasked) (huntidy : Untidy s) :
    Stage setup (s.wound setup raised) (s.wound setup raised).main := by
  obtain ⟨failure, raising, heq, -⟩ := Session.wound_eq setup s raised
  rw [heq]
  have hall : setup.config.targetCodes = [] ++ setup.config.targetCodes := rfl
  have hhome : { s with watching := false, failure }.Each [] Home := fun l hl => by cases hl
  exact stage_stopNext raising hover hall hhome hunasked huntidy

theorem stage_startPump (hunasked : s.Each setup.config.targetCodes Unasked) (huntidy : Untidy s) :
    Stage setup (s.startPump setup) (s.startPump setup).main :=
  ⟨by simp [Session.startPump], hunasked, huntidy⟩

theorem each_startWorkers (setup : Setup) (s : Session) :
    (s.startWorkers setup).Each setup.config.targetCodes Unasked :=
  fun l hl => ⟨.fresh, by simp [Session.startWorkers, hl], unasked_fresh⟩

/-- A step of `run` ends at its stage. -/
theorem stage_main {event : MainEvent} (hstage : Stage setup s s.main)
    (hdid : MainDid setup s event t) : Stage setup t t.main := by
  cases hdid with
  | publishFailed hmain =>
    rw [hmain] at hstage
    exact .inl ⟨hstage.1, hstage.2.2⟩
  | published hmain hstore =>
    rw [hmain] at hstage
    exact ⟨hstage.1, each_startWorkers setup s, hstage.2.2⟩
  | publishedUnstored hmain hstore =>
    rw [hmain] at hstage
    exact stage_startPump (each_startWorkers setup s) hstage.2.2
  | markFailed hmain =>
    rw [hmain] at hstage
    exact .inl ⟨hstage.1, hstage.2.2⟩
  | marked hmain =>
    rw [hmain] at hstage
    exact stage_startPump hstage.2.1 hstage.2.2
  | raced hmain hpump =>
    rw [hmain] at hstage
    exact stage_wound _ ⟨_, hpump⟩ hstage.2.1 hstage.2.2
  | timedOut hmain hpump =>
    rw [hmain] at hstage
    exact hstage
  | joined hmain hpump hsuppressed =>
    rw [hmain] at hstage
    exact stage_wound _ ⟨_, hpump⟩ hstage.2.1 hstage.2.2
  | @stopped language left raising w hmain hw hpc =>
    rw [hmain] at hstage
    obtain ⟨hover, ⟨home, language', rest, hleft, hall, hhome, hasked, hrest⟩, huntidy⟩ := hstage
    obtain ⟨rfl, rfl⟩ := List.cons.inj hleft
    have hone : s.Each [language] Home := by
      intro l hl
      obtain ⟨v, hv, hstate⟩ := hasked l hl
      obtain rfl := List.mem_singleton.mp hl
      rw [hw] at hv
      cases hv
      exact ⟨w, hw, hstate.resolve_left fun h => h.1 hpc⟩
    rw [List.append_cons] at hall
    exact stage_stopNext raising hover hall (each_append_iff.mpr ⟨hhome, hone⟩) hrest huntidy
  | @stopFailed language left raising w hmain hw hpc =>
    rw [hmain] at hstage
    exact .inr (.inl ⟨hstage.1, ⟨language, w, hw, hpc⟩, hstage.2.2⟩)
  | closeFailed hmain =>
    rw [hmain] at hstage
    exact .inr (.inr ⟨hstage.1, by simp [Session.raises, hstage.2]⟩)
  | closedRaising hmain =>
    rw [hmain] at hstage
    exact .inr (.inr ⟨hstage.1, by simp [Session.raises, hstage.2]⟩)
  | closed hmain =>
    rw [hmain] at hstage
    unfold Session.settle
    split
    · exact ⟨hstage.1, by simp [hstage.2]⟩
    · exact .inr (.inr ⟨hstage.1, by simp [Session.returns, hstage.2]⟩)
  | settled hmain =>
    rw [hmain] at hstage
    exact .inr (.inr ⟨hstage.1, by simp [Session.returns, hstage.2]⟩)
  | settleFailed hmain =>
    rw [hmain] at hstage
    exact .inr (.inr ⟨hstage.1, by simp [Session.raises, hstage.2]⟩)

/-- While the pump is active, `run` waits for it. -/
theorem stage_active {p : Pump} (hstage : Stage setup s s.main) (hpump : s.pump = .active p) :
    (s.main = .racing ∨ s.main = .cancelling) ∧ s.Each setup.config.targetCodes Unasked ∧
      Untidy s := by
  have hnot : ¬ s.pump.Over := fun ⟨raised, h⟩ => by simp [hpump] at h
  have hnot' : s.pump ≠ .absent := by simp [hpump]
  cases hmain : s.main with
  | publishing => rw [hmain] at hstage; exact absurd hstage.1 hnot'
  | marking => rw [hmain] at hstage; exact absurd hstage.1 hnot'
  | racing => rw [hmain] at hstage; exact ⟨.inl rfl, hstage.2⟩
  | cancelling => rw [hmain] at hstage; exact ⟨.inr rfl, hstage.2⟩
  | stopping left raising => rw [hmain] at hstage; exact absurd hstage.1 hnot
  | closing raising => rw [hmain] at hstage; exact absurd hstage.1.1 hnot
  | settling => rw [hmain] at hstage; exact absurd hstage.1.1 hnot
  | finished result =>
    rw [hmain] at hstage
    rcases hstage with h | h | h
    · exact absurd h.1 hnot'
    · exact absurd h.1 hnot
    · exact absurd h.1.1 hnot

/-- After a step of the pump there is a pump, active or over. -/
theorem pump_exists [Unicode] {p : Pump} {pump : PumpTask} (hdid : Session.PumpDid s p pump t) :
    t.pump = pump ∧ pump ≠ .absent := by
  cases hdid with
  | rests hpump => rcases hpump with ⟨q, hyp, now, rfl, -⟩ | ⟨raised, rfl⟩ <;> simp
  | dispatches hpc hsubmitted hpump => rcases hpump with ⟨q, later, rfl, -⟩ | ⟨raised, rfl⟩ <;> simp

/-- A step of the pump ends at its stage. -/
theorem stage_pump [Unicode] {p : Pump} {pump : PumpTask} (hstage : Stage setup s s.main)
    (hpump : s.pump = .active p) (hdid : Session.PumpDid s p pump t) :
    Stage setup t t.main := by
  obtain ⟨hmain, hunasked, huntidy⟩ := stage_active hstage hpump
  obtain ⟨htpump, hexists⟩ := pump_exists hdid
  have hactive : t.pump ≠ .absent := htpump ▸ hexists
  have hall : t.main = s.main ∧ t.Each setup.config.targetCodes Unasked ∧ Untidy t := by
    cases hdid with
    | rests hpump => exact ⟨rfl, hunasked, huntidy⟩
    | dispatches hpc hsubmitted hpump => exact ⟨rfl, each_submitted hunasked hsubmitted, huntidy⟩
  obtain ⟨hmain', hunasked', huntidy'⟩ := hall
  rw [hmain']
  rcases hmain with hmain | hmain <;> rw [hmain] <;> exact ⟨hactive, hunasked', huntidy'⟩

/-- A step of a worker ends at its stage. -/
theorem stage_worker {recorder drift rows} (hstage : Stage setup s s.main)
    (hw : s.workers language = some w) (hmoves : Moves setup language w w') :
    Stage setup
      { s with workers := Function.update s.workers language (some w'), recorder, drift, rows }
      s.main := by
  generalize ht : { s with workers := _, recorder, drift, rows } = t
  have hworkers : t.workers = Function.update s.workers language (some w') := by rw [← ht]
  have huntidy : Untidy s → Untidy t := by rw [← ht]; exact id
  have hpump : t.pump = s.pump := by rw [← ht]
  have hunasked : ∀ ls, s.Each ls Unasked → t.Each ls Unasked :=
    fun ls h => each_update h hw hworkers fun h => h.moves hmoves
  have htidy : Tidy setup s → Tidy setup t := by
    rintro ⟨hover, hhome, hclosed⟩
    exact ⟨hpump ▸ hover, each_home hhome hw hworkers hmoves, by rw [← ht]; exact hclosed⟩
  have hsettled : t.settled = s.settled := by rw [← ht]
  have hfailure : t.failure = s.failure := by rw [← ht]
  cases hmain : s.main with
  | publishing =>
    rw [hmain] at hstage
    simp [hstage.2.1 language] at hw
  | marking =>
    rw [hmain] at hstage
    exact ⟨hpump.trans hstage.1, hunasked _ hstage.2.1, huntidy hstage.2.2⟩
  | racing =>
    rw [hmain] at hstage
    exact ⟨hpump ▸ hstage.1, hunasked _ hstage.2.1, huntidy hstage.2.2⟩
  | cancelling =>
    rw [hmain] at hstage
    exact ⟨hpump ▸ hstage.1, hunasked _ hstage.2.1, huntidy hstage.2.2⟩
  | stopping left raising =>
    rw [hmain] at hstage
    obtain ⟨hover, ⟨home, language', rest, hleft, hall, hhome, hasked, hrest⟩, hun⟩ := hstage
    refine ⟨hpump ▸ hover, ⟨home, language', rest, hleft, hall, each_home hhome hw hworkers hmoves,
      each_update hasked hw hworkers ?_, hunasked _ hrest⟩, huntidy hun⟩
    rintro (h | h)
    · exact h.moves hmoves
    · exact absurd h hmoves.not_home
  | closing raising =>
    rw [hmain] at hstage
    exact ⟨htidy hstage.1, hsettled.trans hstage.2⟩
  | settling =>
    rw [hmain] at hstage
    exact ⟨htidy hstage.1, by rw [hsettled, hfailure]; exact hstage.2⟩
  | finished result =>
    rw [hmain] at hstage
    rcases hstage with ⟨habsent, hun⟩ | ⟨hover, ⟨l, v, hv, hdied⟩, hun⟩ | ⟨hdone, hlength⟩
    · exact .inl ⟨hpump.trans habsent, huntidy hun⟩
    · have hne : l ≠ language := by
        rintro rfl
        rw [hw] at hv
        cases hv
        exact hmoves.not_died hdied
      exact .inr (.inl ⟨hpump ▸ hover, ⟨l, v, by simp [hworkers, hne, hv], hdied⟩, huntidy hun⟩)
    · exact .inr (.inr ⟨htidy hdone, hsettled ▸ hlength⟩)

end

/-! ## Every step -/

/-- What a step of a session does. -/
inductive Did [Unicode] (setup : Setup) (s : Session) : Event → Session → Prop
  | main {event : MainEvent} {t : Session} (hdid : MainDid setup s event t) :
      Did setup s (.main event) t
  | pump {event : PumpEvent} {p : Pump} {pump : PumpTask} {t : Session} (hpump : s.pump = .active p)
      (hdid : Session.PumpDid s p pump t)
      (hcancels : pump = .ended (some .cancelled) ↔ event.Cancels) : Did setup s (.pump event) t
  | worker {language : String} {event : WorkerEvent} {w w' : Worker} {recorder drift rows}
      (hw : s.workers language = some w) (hmoves : Moves setup language w w')
      (hdied : w'.pc = .died ↔ event.Cancels w)
      (hcovered : drift.Covers setup.config.targetCodes setup.policyFor) :
      Did setup s (.worker language event)
        { s with workers := Function.update s.workers language (some w'), recorder, drift, rows }
  | watch {now : ℚ} {end_reason stop watching} :
      Did setup s (.watch now) { s with end_reason, stop, watching }
  | frame {t_audio t_wall : ℚ} {recorder} : Did setup s (.frame t_audio t_wall) { s with recorder }

variable [Unicode] {s t : Session}

theorem pump_step {event : PumpEvent} (h : (sessionRuns setup).step s (.pump event) = some t) :
    ∃ p, s.pump = .active p ∧ s.pumpStep setup p event = some t := by
  simp only [sessionRuns] at h
  split at h
  · rename_i p hpump
    exact ⟨p, hpump, h⟩
  · cases h

/-- A wake-up of the watchdog leaves all but three fields as they were. -/
theorem watch_step {now : ℚ} (h : (sessionRuns setup).step s (.watch now) = some t) :
    ∃ end_reason stop watching, t = { s with end_reason, stop, watching } := by
  simp only [sessionRuns] at h
  split at h
  · cases h
    unfold Session.watch
    simp only
    split_ifs <;> exact ⟨_, _, _, rfl⟩
  · cases h

theorem frame_step {t_audio t_wall : ℚ}
    (h : (sessionRuns setup).step s (.frame t_audio t_wall) = some t) :
    t = s.anchorClock t_audio t_wall := by
  simp only [sessionRuns] at h
  split at h
  · exact (Option.some.inj h).symm
  · cases h

omit [Unicode] in
/-- A frame that passes touches the recorder alone. -/
theorem anchorClock_eq (s : Session) (t_audio t_wall : ℚ) :
    ∃ recorder, s.anchorClock t_audio t_wall = { s with recorder } := by
  unfold Session.anchorClock
  split <;> exact ⟨_, rfl⟩

theorem step_did (hs : Sound setup s) {event : Event} (h : (sessionRuns setup).step s event = some t) :
    Did setup s event t := by
  cases event with
  | main event => exact .main (Session.mainStep_did h)
  | pump event =>
    obtain ⟨p, hpump, h⟩ := pump_step h
    obtain ⟨pump, hdid, hcancels⟩ := Session.pumpStep_did h
    exact .pump hpump hdid hcancels
  | worker language event =>
    obtain ⟨w, hw, h⟩ := Option.bind_eq_some_iff.mp h
    obtain ⟨⟨w', recorder, drift, rows, rfl, hmoves, hdied⟩, hcovered⟩ :=
      Session.workerStep_did hs.covered (hs.languages language w hw) h
    exact .worker hw hmoves hdied hcovered
  | watch now =>
    obtain ⟨end_reason, stop, watching, rfl⟩ := watch_step h
    exact .watch
  | frame t_audio t_wall =>
    obtain ⟨recorder, heq⟩ := anchorClock_eq s t_audio t_wall
    rw [frame_step h, heq]
    exact .frame

/-- The worker is new, for a language of the session, or it is the one that
was there, with at most the sentinel put into its queue. -/
def Left (setup : Setup) (s : Session) (l : String) (w' : Worker) : Prop :=
  (l ∈ setup.config.targetCodes ∧ w' = .fresh) ∨
    ∃ w, s.workers l = some w ∧ (w' = w ∨ w' = w.put none)

omit [Unicode] in
/-- What a step of `run` leaves of the workers. -/
theorem main_workers {event : MainEvent} (hdid : MainDid setup s event t) {l : String} {w' : Worker}
    (hw' : t.workers l = some w') : Left setup s l w' := by
  have hsame : s.workers l = some w' → Left setup s l w' := fun hw => .inr ⟨w', hw, .inl rfl⟩
  have hstart : (s.startWorkers setup).workers l = some w' → Left setup s l w' := by
    intro hw
    simp only [Session.startWorkers] at hw
    split at hw
    · rename_i hl
      cases hw
      exact .inl ⟨hl, rfl⟩
    · cases hw
  have hstop : ∀ (s₀ : Session) raising left, s₀.workers = s.workers →
      (s₀.stopNext raising left).workers l = some w' → Left setup s l w' := by
    intro s₀ raising left hs₀ hw
    cases left with
    | nil => exact hsame (hs₀ ▸ hw)
    | cons language left =>
      by_cases hl : l = language
      · subst hl
        simp only [Session.stopNext, Function.update_self] at hw
        obtain ⟨v, hv, rfl⟩ := Option.map_eq_some_iff.mp hw
        exact .inr ⟨v, hs₀ ▸ hv, .inr rfl⟩
      · exact hsame (by simpa [Session.stopNext, hl, hs₀] using hw)
  have hwound : ∀ raised, (s.wound setup raised).workers l = some w' → Left setup s l w' := by
    intro raised hw
    obtain ⟨failure, raising, heq, -⟩ := Session.wound_eq setup s raised
    rw [heq] at hw
    exact hstop { s with watching := false, failure } raising _ rfl hw
  cases hdid with
  | publishFailed hmain => exact hsame hw'
  | published hmain hstore => exact hstart hw'
  | publishedUnstored hmain hstore => exact hstart hw'
  | markFailed hmain => exact hsame hw'
  | marked hmain => exact hsame hw'
  | raced hmain hpump => exact hwound _ hw'
  | timedOut hmain hpump => exact hsame hw'
  | joined hmain hpump hsuppressed => exact hwound _ hw'
  | stopped hmain hw hpc => exact hstop s _ _ rfl hw'
  | stopFailed hmain hw hpc => exact hsame hw'
  | closeFailed hmain => exact hsame hw'
  | closedRaising hmain => exact hsame hw'
  | closed hmain =>
    unfold Session.settle at hw'
    split at hw' <;> exact hsame hw'
  | settled hmain => exact hsame hw'
  | settleFailed hmain => exact hsame hw'

omit [Unicode] in
theorem main_drift {event : MainEvent} (hdid : MainDid setup s event t) : t.drift = s.drift := by
  have hstop : ∀ (s₀ : Session) raising left, (s₀.stopNext raising left).drift = s₀.drift := by
    intro s₀ raising left
    cases left <;> rfl
  have hwound : ∀ raised, (s.wound setup raised).drift = s.drift := by
    intro raised
    obtain ⟨failure, raising, heq, -⟩ := Session.wound_eq setup s raised
    rw [heq]
    exact hstop _ _ _
  cases hdid with
  | raced hmain hpump => exact hwound _
  | joined hmain hpump hsuppressed => exact hwound _
  | stopped hmain hw hpc => exact hstop s _ _
  | closed hmain =>
    unfold Session.settle
    split <;> rfl
  | _ => rfl

omit [Unicode] in
/-- A worker got a phrase, or nothing. -/
theorem submitted_worker {chunk : PhraseChunk} (h : Submitted chunk s t) {l : String} {w' : Worker}
    (hw' : t.workers l = some w') :
    ∃ w, s.workers l = some w ∧ (w' = w ∨ ∃ phrase, w' = w.put (some phrase)) := by
  rcases h l with ⟨hsame, -⟩ | ⟨w, text, hw, hput, -⟩
  · exact ⟨w', hsame ▸ hw', .inl rfl⟩
  · rw [hput] at hw'
    cases hw'
    exact ⟨w, hw, .inr ⟨_, rfl⟩⟩

/-- Every step keeps a session sound. -/
theorem sound_step {event : Event} (hs : Sound setup s)
    (h : (sessionRuns setup).step s event = some t) : Sound setup t := by
  cases step_did hs h with
  | main hdid =>
    refine ⟨?_, ?_, stage_main hs.stage hdid⟩
    · rw [Covered, main_drift hdid]
      exact hs.covered
    · intro l w hw
      rcases main_workers hdid hw with ⟨hl, -⟩ | ⟨v, hv, -⟩
      · exact hl
      · exact hs.languages l v hv
  | pump hpump hdid hcancels =>
    refine ⟨?_, ?_, stage_pump hs.stage hpump hdid⟩
    · cases hdid <;> exact hs.covered
    · cases hdid with
      | rests => exact hs.languages
      | dispatches hpc hsubmitted =>
        intro l w hw
        obtain ⟨v, hv, -⟩ := submitted_worker hsubmitted hw
        exact hs.languages l v hv
  | @worker language event w w' recorder drift rows hw hmoves hdied hcovered =>
    refine ⟨hcovered, ?_, stage_worker hs.stage hw hmoves⟩
    intro l v hv
    by_cases hl : l = language
    · exact hl ▸ hs.languages _ _ hw
    · exact hs.languages l v (by simpa [Function.update_of_ne hl] using hv)
  | watch => exact ⟨hs.covered, hs.languages, hs.stage⟩
  | frame => exact ⟨hs.covered, hs.languages, hs.stage⟩

/-- Every state of every run is at its stage. -/
theorem sound_of_run {events : List Event} (h : (sessionRuns setup).run events = some s) :
    Sound setup s :=
  (sessionRuns setup).invariant (sound_start setup) (fun _ _ _ hs h => sound_step hs h) ⟨events, h⟩

end lad_translate.pipeline
