-- Start-ups that overlap. The ledger is looked at in one statement and written in
-- another, so two calls can both find a file missing. The one that inserts last
-- then raises: nothing but the key keeps the two apart.
import LadTranslate.StartUps

open machines

namespace lad_translate.migrate

open tenancy

namespace StartUp

/-! ## What one call does -/

variable {read : String → Option String} {schema : String} {filenames : List String}
  {s t : StartUp} {x : Service}
  {ledger ledger' : List String} {held : Option String} {c c' : Call}

theorem turn_not_ended {result : Except StartUpError (List String)}
    (h : Call.Turn read schema ledger held c ledger' c') : c.phase ≠ .ended result := by
  cases h with
  | _ hphase => simp [hphase]

/-- The ledger only grows. -/
theorem turn_grows {filename : String} (h : Call.Turn read schema ledger held c ledger' c')
    (hmem : filename ∈ ledger) : filename ∈ ledger' := by
  cases h with
  | committed hphase => exact List.mem_append_left _ hmem
  | _ => exact hmem

/-- A file leaves the list once it is read. -/
theorem turn_todo (h : Call.Turn read schema ledger held c ledger' c') :
    c'.todo = c.todo ∨ ∃ filename, c.todo = filename :: c'.todo ∧ read filename ≠ none := by
  cases h with
  | @opened filename sql todo hphase htodo hread => exact .inr ⟨filename, htodo, by simp [hread]⟩
  | _ => exact .inl rfl

/-- A file is left to do, or it is the current one, or it is recorded. -/
def Covered (ledger : List String) (c : Call) (filename : String) : Prop :=
  filename ∈ c.todo ∨ c.phase.current = some filename ∨ filename ∈ ledger

theorem turn_covered {filename : String} (h : Call.Turn read schema ledger held c ledger' c')
    (hcovered : Covered ledger c filename) :
    (∃ e, c'.phase = .ended (.error e)) ∨ Covered ledger' c' filename := by
  rcases hcovered with htodo | hcurrent | hmem
  · right
    cases h with
    | opened hphase hlist hread =>
      rw [hlist] at htodo
      rcases List.mem_cons.mp htodo with rfl | hrest
      · exact .inr (.inl rfl)
      · exact .inl hrest
    | _ => exact .inl htodo
  · cases h with
    | violated => exact .inl ⟨_, rfl⟩
    | already hphase hmem =>
      rw [hphase] at hcurrent
      cases hcurrent
      exact .inr (.inr (.inr hmem))
    | committed hphase =>
      rw [hphase] at hcurrent
      cases hcurrent
      exact .inr (.inr (.inr (List.mem_append_right _ (List.mem_singleton_self _))))
    | _ hphase =>
      rw [hphase] at hcurrent
      first
        | exact .inr (.inr (.inl hcurrent))
        | cases hcurrent
  · exact .inr (.inr (.inr (turn_grows h hmem)))

/-- Why a call ends. -/
theorem turn_ended {result : Except StartUpError (List String)}
    (h : Call.Turn read schema ledger held c ledger' c') (hended : c'.phase = .ended result) :
    match result with
    | .ok applied => applied = c'.applied ∧ c'.todo = []
    | .error (.apply _) =>
      validateSchema schema ≠ .ok schema ∨ ∃ filename ∈ c.todo, read filename = none
    | .error (.uniqueViolation filename) => c.phase = .record filename ∧ filename ∈ ledger := by
  cases h with
  | refused hphase hname =>
    cases hended
    exact .inl (by simp [hname])
  | notFound hphase htodo hread =>
    cases hended
    exact .inr ⟨_, by rw [htodo]; exact List.mem_cons_self, hread⟩
  | returned hphase htodo =>
    cases hended
    exact ⟨rfl, htodo⟩
  | violated hphase hheld hmem =>
    cases hended
    exact ⟨hphase, hmem⟩
  | _ => cases hended

/-- What a call makes of the files. -/
structure Sound (read : String → Option String) (schema : String) (filenames ledger : List String)
    (c : Call) : Prop where
  todo : ∀ filename ∈ c.todo, filename ∈ filenames
  found : ∀ filename ∈ filenames, filename ∈ c.todo ∨ read filename ≠ none
  covered : (∃ e, c.phase = .ended (.error e)) ∨ ∀ filename ∈ filenames, Covered ledger c filename
  valid : c.phase = .validate ∨ (∃ e, c.phase = .ended (.error e)) ∨
    validateSchema schema = .ok schema
  returned : ∀ applied, c.phase = .ended (.ok applied) → applied = c.applied ∧ c.todo = []
  refused : ∀ e, c.phase = .ended (.error (.apply e)) →
    validateSchema schema ≠ .ok schema ∨ ∃ filename ∈ filenames, read filename = none

theorem sound_turn (h : Call.Turn read schema ledger held c ledger' c')
    (hc : Sound read schema filenames ledger c) : Sound read schema filenames ledger' c' where
  todo := by
    intro filename hmem
    rcases turn_todo h with hsame | ⟨opened, hcons, -⟩
    · exact hc.todo filename (hsame ▸ hmem)
    · exact hc.todo filename (by rw [hcons]; exact List.mem_cons_of_mem _ hmem)
  found := by
    intro filename hmem
    rcases turn_todo h with hsame | ⟨opened, hcons, hread⟩
    · rw [hsame]
      exact hc.found filename hmem
    · rcases hc.found filename hmem with htodo | hfound
      · rw [hcons] at htodo
        rcases List.mem_cons.mp htodo with rfl | hrest
        · exact .inr hread
        · exact .inl hrest
      · exact .inr hfound
  covered := by
    by_cases hfailed : ∃ e, c'.phase = .ended (.error e)
    · exact .inl hfailed
    · right
      intro filename hmem
      rcases hc.covered with ⟨e, he⟩ | hcovered
      · exact absurd he (turn_not_ended h)
      · exact (turn_covered h (hcovered filename hmem)).resolve_left hfailed
  valid := by
    rcases hc.valid with hphase | ⟨e, he⟩ | hvalid
    · cases h with
      | refused => exact .inr (.inl ⟨_, rfl⟩)
      | validated hphase hname => exact .inr (.inr hname)
      | _ hphase' =>
        rw [hphase] at hphase'
        cases hphase'
    · exact absurd he (turn_not_ended h)
    · exact .inr (.inr hvalid)
  returned := fun _ hended => turn_ended h hended
  refused := by
    intro e hended
    refine (turn_ended h hended).imp_right ?_
    rintro ⟨filename, hmem, hread⟩
    exact ⟨filename, hc.todo filename hmem, hread⟩

/-- What both calls have made of the files. -/
theorem sound_run {ledger : Ledger} {steps : List Service}
    (h : (startUps read schema filenames ledger).run steps = some s) (x : Service) :
    Sound read schema filenames s.ledger (s.call x) := by
  refine (startUps read schema filenames ledger).invariant
    (P := fun s => ∀ x, Sound read schema filenames s.ledger (s.call x)) ?_ ?_ ⟨steps, h⟩ x
  · exact fun x => ⟨fun _ h => h, fun _ h => .inl h, .inr fun _ h => .inl h, .inl rfl,
      fun _ h => (by cases h), fun _ h => (by cases h)⟩
  · intro s x t hs hstep y
    obtain ⟨hturn, hother⟩ := step_cases hstep
    rcases x.eq_or_other y with rfl | rfl
    · exact sound_turn hturn (hs _)
    · have hsound := hs x.other
      rw [hother]
      refine ⟨hsound.todo, hsound.found, ?_, hsound.valid, hsound.returned, hsound.refused⟩
      refine hsound.covered.imp_right fun hcovered filename hmem => ?_
      exact (hcovered filename hmem).imp_right fun h => h.imp_right (turn_grows hturn)

/-! ## The records -/

/-- How often a call has a filename in an open transaction. -/
def pending (c : Call) (filename : String) : Nat :=
  if c.phase.inserted = some filename then 1 else 0

/-- A record that a call adds, to the ledger or to its transaction, is in its list. -/
theorem turn_counts (h : Call.Turn read schema ledger held c ledger' c') (filename : String) :
    ledger'.count filename + pending c' filename + c.applied.count filename =
      ledger.count filename + pending c filename + c'.applied.count filename := by
  cases h with
  | recorded hphase =>
    simp only [pending, hphase, Phase.inserted, List.count_append, List.count_singleton,
      beq_iff_eq, Option.some.injEq, reduceCtorEq, if_false]
    omega
  | committed hphase =>
    simp [pending, hphase, Phase.inserted, Call.toPhase, List.count_singleton]
  | _ hphase => simp [pending, hphase, Phase.inserted, Call.toPhase, Call.fail]

/-- An insert finds the key in neither the ledger nor the other's transaction. -/
theorem turn_unique (h : Call.Turn read schema ledger held c ledger' c') (filename : String) :
    ledger'.count filename + pending c' filename = ledger.count filename + pending c filename ∨
      ledger'.count filename + pending c' filename = 1 ∧ ledger.count filename = 0 ∧
        held ≠ some filename := by
  cases h with
  | @recorded recorded hphase hheld hmem =>
    by_cases hsame : recorded = filename
    · subst hsame
      right
      simp [pending, Phase.inserted, List.count_eq_zero.mpr hmem, hheld]
    · left
      simp [pending, hphase, Phase.inserted, hsame]
  | committed hphase =>
    left
    simp [pending, hphase, Phase.inserted, Call.toPhase, List.count_singleton]
  | _ hphase =>
    left
    simp [pending, hphase, Phase.inserted, Call.toPhase, Call.fail]

/-- The records of a file, committed and pending: those from before, and one
for each of the calls' lists that has it. The key keeps them to one. -/
structure Kept (ledger : Ledger) (s : StartUp) (filename : String) : Prop where
  balance : s.ledger.count filename +
      (pending (s.call .first) filename + pending (s.call .second) filename) =
    ledger.1.count filename +
      ((s.call .first).applied.count filename + (s.call .second).applied.count filename)
  unique : s.ledger.count filename +
    (pending (s.call .first) filename + pending (s.call .second) filename) ≤ 1

theorem kept_run {ledger : Ledger} {steps : List Service}
    (h : (startUps read schema filenames ledger).run steps = some s) (filename : String) :
    Kept ledger s filename := by
  refine (startUps read schema filenames ledger).invariant
    (P := fun s => Kept ledger s filename) ?_ ?_ ⟨steps, h⟩
  · exact ⟨by simp [startUps, pending, Phase.inserted],
      by simpa [startUps, pending, Phase.inserted] using
        List.nodup_iff_count_le_one.mp ledger.2 filename⟩
  · intro s x t hs hstep
    obtain ⟨hturn, hother⟩ := step_cases hstep
    obtain ⟨hbalance, hunique⟩ := hs
    have hcounts := turn_counts hturn filename
    rw [Service.both (fun y => pending (s.call y) filename) x] at hbalance hunique
    rw [Service.both (fun y => (s.call y).applied.count filename) x] at hbalance
    constructor
    · rw [Service.both (fun y => pending (t.call y) filename) x,
        Service.both (fun y => (t.call y).applied.count filename) x, hother]
      omega
    · rw [Service.both (fun y => pending (t.call y) filename) x, hother]
      rcases turn_unique hturn filename with hsame | ⟨hone, hzero, hheld⟩
      · omega
      · have hnone : pending (s.call x.other) filename = 0 := if_neg hheld
        omega

/-! ## Calls that overlap -/

/-- The call looks for a file that the ledger does not hold yet, and that the
other call has looked for in vain too, and has not committed since. -/
def Overlaps (s : StartUp) (x : Service) : Prop :=
  ∃ filename, (s.call x).phase = .check filename ∧ filename ∉ s.ledger ∧
    (s.call x.other).phase.missing = some filename

/-- What a call has not found is not in the ledger, and the other call is not
about to record it. No key is violated. -/
structure Apart (s : StartUp) (x : Service) : Prop where
  absent : ∀ filename, (s.call x).phase.missing = some filename →
    filename ∉ s.ledger ∧ (s.call x.other).phase.missing ≠ some filename
  intact : ∀ filename, (s.call x).phase ≠ .ended (.error (.uniqueViolation filename))

/-- What is missing after a step was missing before it, or is looked for. -/
theorem turn_missing {filename : String} (h : Call.Turn read schema ledger held c ledger' c')
    (hmissing : c'.phase.missing = some filename) :
    c.phase.missing = some filename ∧ ledger' = ledger ∨
      c.phase = .check filename ∧ filename ∉ ledger ∧ ledger' = ledger := by
  cases h with
  | absent hphase hmem =>
    cases hmissing
    exact .inr ⟨hphase, hmem, rfl⟩
  | executed hphase =>
    cases hmissing
    exact .inl ⟨by rw [hphase]; rfl, rfl⟩
  | recorded hphase =>
    cases hmissing
    exact .inl ⟨by rw [hphase]; rfl, rfl⟩
  | _ => cases hmissing

theorem turn_adds {filename : String} (h : Call.Turn read schema ledger held c ledger' c')
    (hmem : filename ∈ ledger') : filename ∈ ledger ∨ c.phase.missing = some filename := by
  cases h with
  | committed hphase =>
    rcases List.mem_append.mp hmem with hold | hnew
    · exact .inl hold
    · rw [List.mem_singleton.mp hnew, hphase]
      exact .inr rfl
  | _ => exact .inl hmem

theorem apart_step (hs : ∀ x, Apart s x) (hover : ¬ s.Overlaps x)
    (h : s.step read schema x = some t) (y : Service) : Apart t y := by
  obtain ⟨hturn, hother⟩ := step_cases h
  -- what is missing for the stepping call, after its step
  have hself : ∀ filename, (t.call x).phase.missing = some filename →
      filename ∉ t.ledger ∧ (s.call x.other).phase.missing ≠ some filename := by
    intro filename hmissing
    rcases turn_missing hturn hmissing with ⟨hbefore, hledger⟩ | ⟨hphase, hmem, hledger⟩
    · rw [hledger]
      exact (hs x).absent filename hbefore
    · rw [hledger]
      exact ⟨hmem, fun hmissing => hover ⟨filename, hphase, hmem, hmissing⟩⟩
  rcases x.eq_or_other y with rfl | rfl
  · refine ⟨?_, ?_⟩
    · rw [hother]
      exact hself
    · intro filename hended
      obtain ⟨hphase, hmem⟩ := turn_ended hturn hended
      exact ((hs _).absent filename (by rw [hphase]; rfl)).1 hmem
  · refine ⟨?_, ?_⟩
    · rw [hother, Service.other_other]
      intro filename hmissing
      obtain ⟨hnot, hneither⟩ := (hs x.other).absent filename hmissing
      rw [Service.other_other] at hneither
      refine ⟨fun hmem => ?_, fun hafter => (hself filename hafter).2 hmissing⟩
      rcases turn_adds hturn hmem with hbefore | hbefore
      · exact hnot hbefore
      · exact hneither hbefore
    · rw [hother]
      exact (hs x.other).intact

/-- The key is violated, or will be: a call is about to insert what is recorded
already, or what the other is about to record. -/
def Doomed (s : StartUp) : Prop :=
  ∃ x filename, (s.call x).phase = .ended (.error (.uniqueViolation filename)) ∨
    ((s.call x).phase = .execute filename ∨ (s.call x).phase = .record filename) ∧
      (filename ∈ s.ledger ∨ (s.call x.other).phase.missing = some filename)

theorem turn_stays_missing {filename : String} (h : Call.Turn read schema ledger held c ledger' c')
    (hmissing : c.phase.missing = some filename) :
    c'.phase.missing = some filename ∨ filename ∈ ledger' ∨
      c'.phase = .ended (.error (.uniqueViolation filename)) := by
  cases h with
  | executed hphase =>
    rw [hphase] at hmissing
    exact .inl hmissing
  | violated hphase =>
    rw [hphase] at hmissing
    cases hmissing
    exact .inr (.inr rfl)
  | recorded hphase =>
    rw [hphase] at hmissing
    exact .inl hmissing
  | committed hphase =>
    rw [hphase] at hmissing
    cases hmissing
    exact .inr (.inl (List.mem_append_right _ (List.mem_singleton_self _)))
  | _ hphase =>
    rw [hphase] at hmissing
    cases hmissing

theorem turn_check {filename : String} (h : Call.Turn read schema ledger held c ledger' c')
    (hphase : c.phase = .check filename) (hmem : filename ∉ ledger) :
    c'.phase = .execute filename := by
  cases h with
  | already hphase' hmem' =>
    rw [hphase] at hphase'
    cases hphase'
    exact absurd hmem' hmem
  | absent hphase' =>
    rw [hphase] at hphase'
    cases hphase'
    rfl
  | _ hphase' =>
    rw [hphase] at hphase'
    cases hphase'

theorem turn_execute {filename : String} (h : Call.Turn read schema ledger held c ledger' c')
    (hphase : c.phase = .execute filename) :
    c'.phase = .record filename ∧ ledger' = ledger := by
  cases h with
  | executed hphase' =>
    rw [hphase] at hphase'
    cases hphase'
    exact ⟨rfl, rfl⟩
  | _ hphase' =>
    rw [hphase] at hphase'
    cases hphase'

theorem turn_record {filename : String} (h : Call.Turn read schema ledger held c ledger' c')
    (hphase : c.phase = .record filename) :
    filename ∈ ledger ∧ c'.phase = .ended (.error (.uniqueViolation filename)) ∨
      filename ∉ ledger ∧ held ≠ some filename ∧ c'.phase = .commit filename := by
  cases h with
  | violated hphase' hheld hmem =>
    rw [hphase] at hphase'
    cases hphase'
    exact .inl ⟨hmem, rfl⟩
  | recorded hphase' hheld hmem =>
    rw [hphase] at hphase'
    cases hphase'
    exact .inr ⟨hmem, hheld, rfl⟩
  | _ hphase' =>
    rw [hphase] at hphase'
    cases hphase'

/-- The step of a call that waits to insert a key that is not free. -/
theorem doomed_self {filename : String}
    (hphase : (s.call x).phase = .execute filename ∨ (s.call x).phase = .record filename)
    (htaken : filename ∈ s.ledger ∨ (s.call x.other).phase.missing = some filename)
    (h : s.step read schema x = some t) : Doomed t := by
  obtain ⟨hturn, hother⟩ := step_cases h
  rcases hphase with hphase | hphase
  · obtain ⟨hrecord, hledger⟩ := turn_execute hturn hphase
    refine ⟨x, filename, .inr ⟨.inr hrecord, ?_⟩⟩
    rwa [hledger, hother]
  · rcases turn_record hturn hphase with ⟨-, hviolated⟩ | ⟨hmem, hheld, hcommit⟩
    · exact ⟨x, filename, .inl hviolated⟩
    · -- the other call is before its insert, and this one is now after its own
      refine ⟨x.other, filename, .inr ⟨?_, .inr ?_⟩⟩
      · rw [hother]
        rcases Phase.missing_cases (htaken.resolve_left hmem) with hexecute | hrecord | hcommit'
        · exact .inl hexecute
        · exact .inr hrecord
        · rw [hcommit'] at hheld
          exact absurd rfl hheld
      · rw [Service.other_other, hcommit]
        rfl

theorem doomed_step {y : Service} (hs : Doomed s) (h : s.step read schema y = some t) :
    Doomed t := by
  obtain ⟨x, filename, hs⟩ := hs
  rcases x.eq_or_other y with rfl | rfl
  · rcases hs with hended | ⟨hphase, htaken⟩
    · exact absurd hended (turn_not_ended (step_cases h).1)
    · exact doomed_self hphase htaken h
  · obtain ⟨hturn, hsame⟩ := step_cases h
    rw [Service.other_other] at hsame
    rcases hs with hended | ⟨hphase, hmem | hmissing⟩
    · exact ⟨x, filename, .inl (hsame ▸ hended)⟩
    · exact ⟨x, filename, .inr ⟨hsame ▸ hphase, .inl (turn_grows hturn hmem)⟩⟩
    · rcases turn_stays_missing hturn hmissing with hstill | hmem | hended
      · exact ⟨x, filename, .inr ⟨hsame ▸ hphase, .inr hstill⟩⟩
      · exact ⟨x, filename, .inr ⟨hsame ▸ hphase, .inl hmem⟩⟩
      · exact ⟨x.other, filename, .inl hended⟩

/-- Two calls that overlap will violate the key. -/
theorem overlaps_doomed (hover : s.Overlaps x) (h : s.step read schema x = some t) : Doomed t := by
  obtain ⟨filename, hphase, hmem, hmissing⟩ := hover
  obtain ⟨hturn, hother⟩ := step_cases h
  have hexecute := turn_check hturn hphase hmem
  exact ⟨x, filename, .inr ⟨.inl hexecute, .inr (hother ▸ hmissing)⟩⟩

/-- Once the key is bound to be violated, a run that is over has violated it. -/
theorem doomed_complete (hs : Doomed s) (h : s.Complete read schema) :
    ∃ x filename, (s.call x).phase = .ended (.error (.uniqueViolation filename)) := by
  obtain ⟨x, filename, hended | ⟨hphase, -⟩⟩ := hs
  · exact ⟨x, filename, hended⟩
  · obtain ⟨result, hresult⟩ := complete_ended h x
    rw [hresult] at hphase
    rcases hphase with hphase | hphase <;> cases hphase

end StartUp

/-! ## Start-ups that are safe -/

/-- Both calls have returned, each file is recorded once, and each that was not
recorded before is in one of the two lists, once. -/
def Settled (ledger : Ledger) (filenames : List String) (s : StartUp) : Prop :=
  ∃ first second, (s.call .first).phase = .ended (.ok first) ∧
    (s.call .second).phase = .ended (.ok second) ∧
    ∀ filename ∈ filenames, s.ledger.count filename = 1 ∧
      (first ++ second).count filename = if filename ∈ ledger.1 then 0 else 1

/-- No call looks in vain for a file that the other has looked for in vain and
not committed since. -/
def NoneOverlap (read : String → Option String) (schema : String) (filenames : List String)
    (ledger : Ledger) (steps : List Service) : Prop :=
  ∀ before x after s, steps = before ++ x :: after →
    (StartUp.startUps read schema filenames ledger).run before = some s → ¬ s.Overlaps x

variable {read : String → Option String} {schema : String} {filenames : List String}
  {ledger : Ledger} {steps : List Service} {s : StartUp}

theorem apart_run (hnone : NoneOverlap read schema filenames ledger steps)
    (h : (StartUp.startUps read schema filenames ledger).run steps = some s) (x : Service) :
    StartUp.Apart s x := by
  induction steps using List.reverseRecOn generalizing s x with
  | nil =>
    cases h
    exact ⟨fun _ h => (by cases h), fun _ h => (by cases h)⟩
  | append_singleton steps y ih =>
    obtain ⟨u, hu, hstep⟩ :=
      (StartUp.startUps read schema filenames ledger).run_snoc_some.mp h
    refine StartUp.apart_step (ih ?_ hu) (hnone steps y [] u rfl hu) hstep x
    intro before z after u' hsteps
    exact hnone before z (after ++ [y]) u' (by simp [hsteps])

/-- A run that is over, and in which the calls overlapped, has violated the key. -/
theorem overlap_violates
    (h : (StartUp.startUps read schema filenames ledger).run steps = some s)
    (hcomplete : s.Complete read schema)
    (hoverlap : ¬ NoneOverlap read schema filenames ledger steps) :
    ∃ x filename, (s.call x).phase = .ended (.error (.uniqueViolation filename)) := by
  simp only [NoneOverlap, not_forall, not_not] at hoverlap
  obtain ⟨before, x, after, u, rfl, hu, hover⟩ := hoverlap
  obtain ⟨u', hu', hrest⟩ := (StartUp.startUps read schema filenames ledger).run_append_some.mp h
  rw [hu] at hu'
  cases hu'
  rw [Machine.runFrom_cons, Option.bind_eq_some_iff] at hrest
  obtain ⟨v, hstep, hrest⟩ := hrest
  have hdoomed := (StartUp.startUps read schema filenames ledger).kept
    (fun _ _ _ => StartUp.doomed_step) (StartUp.overlaps_doomed hover hstep) hrest
  exact StartUp.doomed_complete hdoomed hcomplete

/-- Calls that do not overlap return their lists. -/
theorem none_overlap_returns
    (h : (StartUp.startUps read schema filenames ledger).run steps = some s)
    (hcomplete : s.Complete read schema) (hvalid : validateSchema schema = .ok schema)
    (hread : ∀ filename ∈ filenames, read filename ≠ none)
    (hnone : NoneOverlap read schema filenames ledger steps) (x : Service) :
    (s.call x).phase = .ended (.ok (s.call x).applied) := by
  have hsound := StartUp.sound_run h x
  obtain ⟨result, hresult⟩ := StartUp.complete_ended hcomplete x
  cases result with
  | ok applied => rw [hresult, (hsound.returned applied hresult).1]
  | error e =>
    cases e with
    | apply e =>
      rcases hsound.refused e hresult with hrefused | ⟨filename, hmem, hnot⟩
      · exact absurd hvalid hrefused
      · exact absurd hnot (hread filename hmem)
    | uniqueViolation filename => exact absurd hresult ((apart_run hnone h x).intact filename)

/-- A call that has returned leaves each of its files in the ledger. -/
theorem returned_recorded {x : Service} {applied : List String} {filename : String}
    (h : (StartUp.startUps read schema filenames ledger).run steps = some s)
    (hreturned : (s.call x).phase = .ended (.ok applied)) (hmem : filename ∈ filenames) :
    filename ∈ s.ledger := by
  have hsound := StartUp.sound_run h x
  rcases hsound.covered with ⟨e, he⟩ | hcovered
  · rw [hreturned] at he
    cases he
  · rcases hcovered filename hmem with htodo | hcurrent | hrecorded
    · rw [(hsound.returned applied hreturned).2] at htodo
      cases htodo
    · rw [hreturned] at hcurrent
      cases hcurrent
    · exact hrecorded

/-- Two services that start up together are safe exactly when the name and the
files are in order and the two calls do not overlap on a file. -/
theorem settled_iff_none_overlap
    (h : (StartUp.startUps read schema filenames ledger).run steps = some s)
    (hcomplete : s.Complete read schema) :
    Settled ledger filenames s ↔
      validateSchema schema = .ok schema ∧ (∀ filename ∈ filenames, read filename ≠ none) ∧
        NoneOverlap read schema filenames ledger steps := by
  constructor
  · rintro ⟨first, second, hfirst, hsecond, -⟩
    have hsound := StartUp.sound_run h .first
    refine ⟨?_, ?_, ?_⟩
    · rcases hsound.valid with hphase | ⟨e, he⟩ | hvalid
      · rw [hfirst] at hphase
        cases hphase
      · rw [hfirst] at he
        cases he
      · exact hvalid
    · intro filename hmem
      rcases hsound.found filename hmem with htodo | hfound
      · rw [(hsound.returned first hfirst).2] at htodo
        cases htodo
      · exact hfound
    · by_contra hoverlap
      obtain ⟨x, filename, hended⟩ := overlap_violates h hcomplete hoverlap
      cases x
      · rw [hfirst] at hended
        cases hended
      · rw [hsecond] at hended
        cases hended
  · rintro ⟨hvalid, hread, hnone⟩
    have hok := none_overlap_returns h hcomplete hvalid hread hnone
    refine ⟨_, _, hok .first, hok .second, fun filename hmem => ?_⟩
    have hnothing : ∀ x, StartUp.pending (s.call x) filename = 0 := by
      intro x
      simp [StartUp.pending, hok x, Phase.inserted]
    have hrecorded := List.count_pos_iff.mpr (returned_recorded h (hok .first) hmem)
    obtain ⟨hbalance, hunique⟩ := StartUp.kept_run h filename
    rw [hnothing .first, hnothing .second] at hbalance hunique
    refine ⟨by omega, ?_⟩
    rw [List.count_append]
    split
    · rename_i hbefore
      have hpositive := List.count_pos_iff.mpr hbefore
      omega
    · rename_i hbefore
      have hzero := List.count_eq_zero.mpr hbefore
      omega

/-! ## Two runs -/

def noMigration (_ : String) : Option String := some ""

/-- The second call looks for the migration after the first has, and before it commits. -/
def overlapping : List Service :=
  List.replicate 5 .first ++ List.replicate 5 .second ++ List.replicate 4 .first ++
    List.replicate 2 .second

theorem overlapping_evaluated :
    ((StartUp.startUps noMigration "acme" tenantMigrations ⟨[], List.nodup_nil⟩).run overlapping).map
      (fun s => ((s.call .first).phase, (s.call .second).phase)) =
      some (.ended (.ok tenantMigrations),
        .ended (.error (.uniqueViolation "001_translation_sessions.sql"))) := by
  decide +kernel

/-- The second call raises, although all is in order. -/
theorem an_overlapping_start_up_raises :
    ∃ s, (StartUp.startUps noMigration "acme" tenantMigrations ⟨[], List.nodup_nil⟩).run
        overlapping = some s ∧
      s.Complete noMigration "acme" ∧
      ¬ Settled ⟨[], List.nodup_nil⟩ tenantMigrations s := by
  obtain ⟨s, hrun, hphases⟩ := Option.map_eq_some_iff.mp overlapping_evaluated
  obtain ⟨hfirst, hsecond⟩ := Prod.mk.inj hphases
  refine ⟨s, hrun, StartUp.ended_complete ?_, ?_⟩
  · rintro (_ | _)
    · exact ⟨_, hfirst⟩
    · exact ⟨_, hsecond⟩
  · rintro ⟨first, second, -, hok, -⟩
    rw [hsecond] at hok
    cases hok

/-- One call after the other. -/
def sequential : List Service := List.replicate 9 .first ++ List.replicate 6 .second

theorem sequential_evaluated :
    ((StartUp.startUps noMigration "acme" tenantMigrations ⟨[], List.nodup_nil⟩).run sequential).map
      (fun s => ((s.call .first).phase, (s.call .second).phase)) =
      some (.ended (.ok tenantMigrations), .ended (.ok [])) := by
  decide +kernel

theorem settled_iff_none_overlap_sequential :
    ∃ s, (StartUp.startUps noMigration "acme" tenantMigrations ⟨[], List.nodup_nil⟩).run
        sequential = some s ∧
      (Settled ⟨[], List.nodup_nil⟩ tenantMigrations s ↔
        validateSchema "acme" = .ok "acme" ∧
          (∀ filename ∈ tenantMigrations, noMigration filename ≠ none) ∧
          NoneOverlap noMigration "acme" tenantMigrations ⟨[], List.nodup_nil⟩ sequential) := by
  obtain ⟨s, hrun, hphases⟩ := Option.map_eq_some_iff.mp sequential_evaluated
  obtain ⟨hfirst, hsecond⟩ := Prod.mk.inj hphases
  refine ⟨s, hrun, settled_iff_none_overlap hrun (StartUp.ended_complete ?_)⟩
  rintro (_ | _)
  · exact ⟨_, hfirst⟩
  · exact ⟨_, hsecond⟩

end lad_translate.migrate
