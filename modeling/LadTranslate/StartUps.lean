-- Two services that start up together and migrate the same schema
-- (db/migrate.py). Each statement, and each commit, is a step of its own. The
-- migrations create what is not there yet, so only the ledger keeps the two
-- calls apart: its key is unique, and an insert of a filename waits while the
-- other call holds that filename in a transaction that is open.
import LadTranslate.Identifiers
import LadTranslate.Machines

open machines

namespace lad_translate.migrate

open tenancy

/-! ## One call -/

/-- What ends a call of `apply` early. -/
inductive StartUpError
  | apply (e : ApplyError)
  | uniqueViolation (filename : String)
deriving DecidableEq

/-- What a call of `apply` does next. -/
inductive Phase
  | validate
  | next
  | createSchema (filename : String)
  | createLedger (filename : String)
  | check (filename : String)
  | execute (filename : String)
  | record (filename : String)
  | commit (filename : String)
  | ended (result : Except StartUpError (List String))
deriving DecidableEq

namespace Phase

/-- The file of this turn of the loop. -/
def current : Phase → Option String
  | validate | next | ended _ => none
  | createSchema filename | createLedger filename | check filename | execute filename
  | record filename | commit filename => some filename

/-- The file that the ledger did not hold, up to the commit of its record. -/
def missing : Phase → Option String
  | execute filename | record filename | commit filename => some filename
  | _ => none

theorem missing_cases {phase : Phase} {filename : String} (h : phase.missing = some filename) :
    phase = .execute filename ∨ phase = .record filename ∨ phase = .commit filename := by
  cases phase with
  | execute => simpa [missing] using h
  | record => simpa [missing] using h
  | commit => simpa [missing] using h
  | _ => cases h

/-- The file whose record is inserted, and not yet committed. -/
def inserted : Phase → Option String
  | commit filename => some filename
  | _ => none

/-- The steps that are left for the file of this turn, and one more. -/
def rank : Phase → Nat
  | ended _ => 0
  | next => 1
  | validate | commit _ => 2
  | record _ => 3
  | execute _ => 4
  | check _ => 5
  | createLedger _ => 6
  | createSchema _ => 7

end Phase

structure Call where
  phase : Phase := .validate
  todo : List String
  applied : List String := []

namespace Call

def toPhase (c : Call) (phase : Phase) : Call := { c with phase }

def fail (c : Call) (e : StartUpError) : Call := c.toPhase (.ended (.error e))

/-- The ledger that is committed, and the call, after the call's next step.
`held` is the filename that the other call has inserted and not committed. -/
def turn (read : String → Option String) (schema : String) (ledger : List String)
    (held : Option String) (c : Call) : Option (List String × Call) :=
  match c.phase with
  | .validate =>
    match validateSchema schema with
    | .error e => some (ledger, c.fail (.apply (.schema e)))
    | .ok _ => some (ledger, c.toPhase .next)
  | .next =>
    match c.todo with
    | [] => some (ledger, c.toPhase (.ended (.ok c.applied)))
    | filename :: todo =>
      match read filename with
      | none => some (ledger, c.fail (.apply (.fileNotFound filename)))
      | some _ => some (ledger, { c with phase := .createSchema filename, todo })
  | .createSchema filename => some (ledger, c.toPhase (.createLedger filename))
  | .createLedger filename => some (ledger, c.toPhase (.check filename))
  | .check filename =>
    if filename ∈ ledger then
      some (ledger, c.toPhase .next)
    else
      some (ledger, c.toPhase (.execute filename))
  | .execute filename => some (ledger, c.toPhase (.record filename))
  | .record filename =>
    if held = some filename then
      none
    else if filename ∈ ledger then
      some (ledger, c.fail (.uniqueViolation filename))
    else
      some (ledger, { c with phase := .commit filename, applied := c.applied ++ [filename] })
  | .commit filename => some (ledger ++ [filename], c.toPhase .next)
  | .ended _ => none

variable {read : String → Option String} {schema : String} {ledger ledger' : List String}
  {held : Option String} {c c' : Call}

/-- The steps of a call, each with what it found. -/
inductive Turn (read : String → Option String) (schema : String) (ledger : List String)
    (held : Option String) (c : Call) : List String → Call → Prop
  | refused {e : SchemaError} (hphase : c.phase = .validate)
      (hname : validateSchema schema = .error e) :
      Turn read schema ledger held c ledger (c.fail (.apply (.schema e)))
  | validated (hphase : c.phase = .validate) (hname : validateSchema schema = .ok schema) :
      Turn read schema ledger held c ledger (c.toPhase .next)
  | returned (hphase : c.phase = .next) (htodo : c.todo = []) :
      Turn read schema ledger held c ledger (c.toPhase (.ended (.ok c.applied)))
  | notFound {filename : String} {todo : List String} (hphase : c.phase = .next)
      (htodo : c.todo = filename :: todo) (hread : read filename = none) :
      Turn read schema ledger held c ledger (c.fail (.apply (.fileNotFound filename)))
  | opened {filename sql : String} {todo : List String} (hphase : c.phase = .next)
      (htodo : c.todo = filename :: todo) (hread : read filename = some sql) :
      Turn read schema ledger held c ledger { c with phase := .createSchema filename, todo }
  | createdSchema {filename : String} (hphase : c.phase = .createSchema filename) :
      Turn read schema ledger held c ledger (c.toPhase (.createLedger filename))
  | createdLedger {filename : String} (hphase : c.phase = .createLedger filename) :
      Turn read schema ledger held c ledger (c.toPhase (.check filename))
  | already {filename : String} (hphase : c.phase = .check filename) (hmem : filename ∈ ledger) :
      Turn read schema ledger held c ledger (c.toPhase .next)
  | absent {filename : String} (hphase : c.phase = .check filename) (hmem : filename ∉ ledger) :
      Turn read schema ledger held c ledger (c.toPhase (.execute filename))
  | executed {filename : String} (hphase : c.phase = .execute filename) :
      Turn read schema ledger held c ledger (c.toPhase (.record filename))
  | violated {filename : String} (hphase : c.phase = .record filename)
      (hheld : held ≠ some filename) (hmem : filename ∈ ledger) :
      Turn read schema ledger held c ledger (c.fail (.uniqueViolation filename))
  | recorded {filename : String} (hphase : c.phase = .record filename)
      (hheld : held ≠ some filename) (hmem : filename ∉ ledger) :
      Turn read schema ledger held c ledger
        { c with phase := .commit filename, applied := c.applied ++ [filename] }
  | committed {filename : String} (hphase : c.phase = .commit filename) :
      Turn read schema ledger held c (ledger ++ [filename]) (c.toPhase .next)

theorem turn_cases (h : c.turn read schema ledger held = some (ledger', c')) :
    Turn read schema ledger held c ledger' c' := by
  unfold turn at h
  cases hphase : c.phase with
  | validate =>
    simp only [hphase] at h
    cases hname : validateSchema schema with
    | error e =>
      simp only [hname] at h
      cases h
      exact .refused hphase hname
    | ok name =>
      simp only [hname] at h
      cases h
      obtain rfl := validateSchema_eq_ok hname
      exact .validated hphase hname
  | next =>
    simp only [hphase] at h
    cases htodo : c.todo with
    | nil =>
      simp only [htodo] at h
      cases h
      exact .returned hphase htodo
    | cons filename todo =>
      simp only [htodo] at h
      cases hread : read filename with
      | none =>
        simp only [hread] at h
        cases h
        exact .notFound hphase htodo hread
      | some sql =>
        simp only [hread] at h
        cases h
        exact .opened hphase htodo hread
  | createSchema filename =>
    simp only [hphase] at h
    cases h
    exact .createdSchema hphase
  | createLedger filename =>
    simp only [hphase] at h
    cases h
    exact .createdLedger hphase
  | check filename =>
    simp only [hphase] at h
    split at h
    · rename_i hmem
      cases h
      exact .already hphase hmem
    · rename_i hmem
      cases h
      exact .absent hphase hmem
  | execute filename =>
    simp only [hphase] at h
    cases h
    exact .executed hphase
  | record filename =>
    simp only [hphase] at h
    split at h
    · cases h
    · rename_i hheld
      split at h
      · rename_i hmem
        cases h
        exact .violated hphase hheld hmem
      · rename_i hmem
        cases h
        exact .recorded hphase hheld hmem
  | commit filename =>
    simp only [hphase] at h
    cases h
    exact .committed hphase
  | ended result =>
    simp only [hphase] at h
    cases h

/-- Only a call that has ended, or that waits for the other's transaction, has no
next step. -/
theorem turn_eq_none (h : c.turn read schema ledger held = none) :
    (∃ result, c.phase = .ended result) ∨
      ∃ filename, c.phase = .record filename ∧ held = some filename := by
  unfold turn at h
  split at h
  · split at h <;> cases h
  · split at h
    · cases h
    · split at h <;> cases h
  · cases h
  · cases h
  · split at h <;> cases h
  · cases h
  · rename_i filename hphase
    split at h
    · rename_i hheld
      exact .inr ⟨filename, hphase, hheld⟩
    · split at h <;> cases h
  · cases h
  · rename_i result hphase
    exact .inl ⟨result, hphase⟩

end Call

/-! ## The two calls -/

inductive Service
  | first
  | second
deriving DecidableEq

def Service.other : Service → Service
  | first => second
  | second => first

theorem Service.other_ne (x : Service) : x.other ≠ x := by cases x <;> decide

theorem Service.other_other (x : Service) : x.other.other = x := by cases x <;> rfl

theorem Service.eq_or_other (x y : Service) : y = x ∨ y = x.other := by
  cases x <;> cases y <;> simp [other]

/-- A figure of both calls, from either one of them. -/
theorem Service.both (figure : Service → Nat) (x : Service) :
    figure .first + figure .second = figure x + figure x.other := by
  cases x
  · rfl
  · exact Nat.add_comm _ _

/-- The rows of `applied_migrations`, under its primary key. -/
abbrev Ledger := { rows : List String // rows.Nodup }

structure StartUp where
  ledger : List String
  call : Service → Call

namespace StartUp

variable {read : String → Option String} {schema : String} {filenames : List String}
  {s t : StartUp} {x : Service}

/-- The next step of one call, if it has one. -/
def step (read : String → Option String) (schema : String) (s : StartUp) (x : Service) :
    Option StartUp :=
  ((s.call x).turn read schema s.ledger (s.call x.other).phase.inserted).map
    fun (ledger, c) => { ledger, call := Function.update s.call x c }

/-- Both calls, on one schema and one list of files. -/
def startUps (read : String → Option String) (schema : String) (filenames : List String)
    (ledger : Ledger) : Machine StartUp Service where
  start := { ledger, call := fun _ => { todo := filenames } }
  step := step read schema

/-- No call has a next step. -/
def Complete (read : String → Option String) (schema : String) (s : StartUp) : Prop :=
  ∀ x, s.step read schema x = none

theorem step_cases (h : s.step read schema x = some t) :
    Call.Turn read schema s.ledger (s.call x.other).phase.inserted (s.call x) t.ledger (t.call x) ∧
      t.call x.other = s.call x.other := by
  obtain ⟨⟨ledger, c⟩, hturn, rfl⟩ := Option.map_eq_some_iff.mp h
  refine ⟨?_, Function.update_of_ne x.other_ne _ _⟩
  simp only [Function.update_self]
  exact Call.turn_cases hturn

/-- A call that waits for the other is not stuck, since the other can commit. -/
theorem complete_ended (h : s.Complete read schema) (x : Service) :
    ∃ result, (s.call x).phase = .ended result := by
  rcases Call.turn_eq_none (Option.map_eq_none_iff.mp (h x)) with hended | ⟨filename, -, hheld⟩
  · exact hended
  · exfalso
    rcases Call.turn_eq_none (Option.map_eq_none_iff.mp (h x.other)) with
      ⟨result, hphase⟩ | ⟨filename', hphase, -⟩
    · rw [hphase] at hheld
      cases hheld
    · rw [hphase] at hheld
      cases hheld

theorem ended_complete (h : ∀ x, ∃ result, (s.call x).phase = .ended result) :
    s.Complete read schema := by
  intro x
  obtain ⟨result, hphase⟩ := h x
  simp [step, Call.turn, hphase]

/-! ## Every interleaving ends -/

def measure (c : Call) : Nat := 8 * c.todo.length + c.phase.rank

theorem turn_measure {ledger ledger' : List String} {held : Option String} {c c' : Call}
    (h : Call.Turn read schema ledger held c ledger' c') : measure c' < measure c := by
  cases h with
  | opened hphase htodo hread =>
    simp only [measure, hphase, htodo, Phase.rank, List.length_cons]
    omega
  | _ hphase => simp [measure, hphase, Phase.rank, Call.fail, Call.toPhase]

theorem startUps_length {ledger : Ledger} {steps : List Service}
    (h : (startUps read schema filenames ledger).run steps = some s) :
    steps.length ≤ 16 * filenames.length + 4 := by
  let μ : StartUp → Nat := fun s => measure (s.call .first) + measure (s.call .second)
  have hle := (startUps read schema filenames ledger).length_le_of_measure (P := fun _ => True) μ
    (fun _ _ _ _ _ => trivial) (fun s x t _ hstep => ?_) trivial h
  · simp only [μ, startUps, measure, Phase.rank] at hle
    omega
  · obtain ⟨hturn, hother⟩ := step_cases hstep
    have hlt := turn_measure hturn
    simp only [μ, Service.both (fun y => measure (t.call y)) x,
      Service.both (fun y => measure (s.call y)) x, hother]
    omega

end StartUp

/-! ## A call that runs alone -/

variable {read : String → Option String} {schema : String} {filenames : List String}
  {ledger : Ledger} {s : StartUp}

namespace StartUp

/-- The state, with another ledger and another call of one service. -/
def put (s : StartUp) (x : Service) (ledger : List String) (c : Call) : StartUp :=
  { ledger, call := Function.update s.call x c }

theorem step_put (hother : (s.call x.other).phase.inserted = none) (rows : List String)
    (c : Call) :
    (s.put x rows c).step read schema x =
      (c.turn read schema rows none).map fun (rows, c) => s.put x rows c := by
  simp [step, put, Function.update_of_ne x.other_ne, hother]

end StartUp

/-- What `apply` returns or raises, after what the call applied before. -/
def outcome (applied : List String) (result : Except ApplyError (List String)) :
    Except StartUpError (List String) :=
  match result with
  | .error e => .error (.apply e)
  | .ok rest => .ok (applied ++ rest)

/-- From the loop's head a call that runs alone comes to the end of `applyFiles`. -/
theorem alone_files {x : Service} {valid : ValidSchema}
    (hother : (s.call x.other).phase.inserted = none) (rows todo applied : List String) :
    ∃ n rows' c, (StartUp.startUps read schema filenames ledger).runFrom
        (s.put x rows ⟨.next, todo, applied⟩) (List.replicate n x) = some (s.put x rows' c) ∧
      c.phase = .ended (outcome applied (applyFiles read valid rows todo).2) := by
  induction todo generalizing rows applied with
  | nil =>
    refine ⟨1, rows, ⟨.ended (.ok applied), [], applied⟩, ?_, ?_⟩
    · simp [Machine.runFrom_cons, StartUp.startUps, StartUp.step_put hother, Call.turn,
        Call.toPhase]
    · simp [applyFiles, outcome]
  | cons filename todo ih =>
    cases hread : read filename with
    | none =>
      refine ⟨1, rows, ⟨.ended (.error (.apply (.fileNotFound filename))), filename :: todo,
        applied⟩, ?_, ?_⟩
      · simp [Machine.runFrom_cons, StartUp.startUps, StartUp.step_put hother, Call.turn, hread,
          Call.fail, Call.toPhase]
      · simp [applyFiles, hread, outcome]
    | some sql =>
      by_cases hmem : filename ∈ rows
      · obtain ⟨n, rows', c, hrun, hphase⟩ := ih rows applied
        refine ⟨4 + n, rows', c, ?_, ?_⟩
        · rw [List.replicate_add, Machine.runFrom_append_some]
          refine ⟨_, ?_, hrun⟩
          simp [List.replicate, Machine.runFrom_cons, StartUp.startUps, StartUp.step_put hother,
            Call.turn, hread, hmem, Call.toPhase]
        · rw [hphase]
          simp [applyFiles, hread, hmem]
      · obtain ⟨n, rows', c, hrun, hphase⟩ := ih (rows ++ [filename]) (applied ++ [filename])
        refine ⟨7 + n, rows', c, ?_, ?_⟩
        · rw [List.replicate_add, Machine.runFrom_append_some]
          refine ⟨_, ?_, hrun⟩
          simp [List.replicate, Machine.runFrom_cons, StartUp.startUps, StartUp.step_put hother,
            Call.turn, hread, hmem, Call.toPhase]
        · rw [hphase]
          simp only [applyFiles, hread, hmem, if_false]
          cases (applyFiles read valid (rows ++ [filename]) todo).2 <;>
            simp [outcome, Except.map]

/-- A call that the other does not hinder returns, or raises, what `apply` does
on the ledger that it finds. -/
theorem alone_returns {x : Service} {todo : List String} (hstart : s.call x = { todo })
    (hother : (s.call x.other).phase.inserted = none) :
    ∃ n t, (StartUp.startUps read schema filenames ledger).runFrom s (List.replicate n x) = some t ∧
      (t.call x).phase = .ended (outcome [] (apply read s.ledger schema todo).2) ∧
      t.call x.other = s.call x.other := by
  have hput : s = s.put x s.ledger { todo } := by
    rw [StartUp.put, ← hstart, Function.update_eq_self]
  have hleft : ∀ rows c, (s.put x rows c).call x.other = s.call x.other :=
    fun rows c => Function.update_of_ne x.other_ne _ _
  have hself : ∀ rows c, (s.put x rows c).call x = c :=
    fun _ _ => Function.update_self ..
  have hstep : s.step read schema x =
      (Call.turn read schema s.ledger none { todo }).map fun (rows, c) => s.put x rows c := by
    rw [← StartUp.step_put hother, ← hput]
  cases hname : validateSchema schema with
  | error e =>
    refine ⟨1, s.put x s.ledger ⟨.ended (.error (.apply (.schema e))), todo, []⟩, ?_, ?_, hleft _ _⟩
    · simp [Machine.runFrom_cons, StartUp.startUps, hstep, Call.turn, hname, Call.fail,
        Call.toPhase]
    · simp [hself, apply, validated_error hname, outcome]
  | ok name =>
    obtain rfl := validateSchema_eq_ok hname
    obtain ⟨n, rows, c, hrun, hphase⟩ :
        ∃ n rows c, (StartUp.startUps read name filenames ledger).runFrom
            (s.put x s.ledger ⟨.next, todo, []⟩) (List.replicate n x) = some (s.put x rows c) ∧
          c.phase = .ended (outcome [] (applyFiles read ⟨name, hname⟩ s.ledger todo).2) :=
      alone_files hother s.ledger todo []
    refine ⟨1 + n, s.put x rows c, ?_, ?_, hleft _ _⟩
    · rw [List.replicate_add, Machine.runFrom_append_some]
      refine ⟨_, ?_, hrun⟩
      simp [Machine.runFrom_cons, StartUp.startUps, hstep, Call.turn, hname, Call.toPhase]
    · have hvalid := validated_eq_ok.mpr (rfl : (⟨name, hname⟩ : ValidSchema).1 = name)
      rw [hself, hphase, apply, hvalid]

end lad_translate.migrate
