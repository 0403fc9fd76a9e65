-- Closed sessions: the calls of any number of stores on one schema, in any
-- order. A row's status says whether it is closed, and a closed session stays
-- shut, as long as no `mark_live` comes to a row that is closed already.
import LadTranslate.Join
import LadTranslate.Machines

open machines fallible tables

namespace lad_translate.sessions

open config api

/-- A call of a store, at a time. -/
structure Turn where
  store : SessionStore
  now : ℚ
  call : StoreCall

section

variable {Uuid : Type} [DecidableEq Uuid] [UuidText Uuid]

/-- The calls on one schema, one after the other, whoever makes them. -/
def schemaRuns : Machine (Schema Uuid) Turn where
  start := .empty
  step schema turn := some (turn.store.after turn.now schema turn.call)

/-! ## What the calls should keep -/

/-- The status says that the session is over. -/
def SessionRow.Over (r : SessionRow Uuid) : Prop := r.status = .ended ∨ r.status = .failed

/-- The status of each row says whether the row is closed. -/
def Truthful (schema : Schema Uuid) : Prop :=
  ∀ r ∈ schema.translation_sessions.rows, r.Over ↔ r.ended_at.isSome = true

/-- No store lists the session, and every request about it is refused. -/
def Shut (schema : Schema Uuid) (session_id : Uuid) : Prop :=
  (∀ (store : SessionStore) rows, store.liveSessions schema = .ok rows →
    ∀ r ∈ rows, r.session_id ≠ session_id) ∧
  ∀ (app : App) (db : Database Uuid) request endpoint store r,
    app.load db endpoint = .ok (store, r) → db store.tenant.schema = schema →
    r.session_id = session_id → app.post db request endpoint =
      .error (if app.issuer.isSome then sessionHasEnded else internalServerError)

/-- Every state that the calls reach is truthful, and what was closed before it
is shut in it. -/
def KeepsClosed (Uuid : Type) [DecidableEq Uuid] [UuidText Uuid] (turns : List Turn) : Prop :=
  ∀ before after rest (s t : Schema Uuid), turns = before ++ after ++ rest →
    schemaRuns.run before = some s → schemaRuns.runFrom s after = some t →
    Truthful t ∧ ∀ r ∈ s.translation_sessions.rows, r.ended_at.isSome = true → Shut t r.session_id

/-- The call marks a row live that is closed already. -/
def Reopens (schema : Schema Uuid) (turn : Turn) : Prop :=
  ∃ session_id, turn.call = .markLive session_id ∧ ∃ r ∈ schema.translation_sessions.rows,
    UuidText.cast session_id = some r.session_id ∧
    UuidText.cast turn.store.tenant.tenant_id = some r.tenant_id ∧ r.ended_at.isSome = true

/-! ## What a call does to the sessions -/

/-- The four things that a call can do to the rows of the sessions. -/
inductive Wrote (schema schema' : Schema Uuid) (turn : Turn) : Prop
  | nothing (hsame : schema'.translation_sessions.rows = schema.translation_sessions.rows)
      (hnot : ¬ Reopens schema turn)
  | created (row : SessionRow Uuid) (hstatus : row.status = .starting) (hopen : row.ended_at = none)
      (hrows : schema'.translation_sessions.rows = schema.translation_sessions.rows ++ [row])
      (hnot : ¬ Reopens schema turn)
  | marked (session_id : String) (id T : Uuid) (hcall : turn.call = .markLive session_id)
      (hid : UuidText.cast session_id = some id)
      (hT : UuidText.cast turn.store.tenant.tenant_id = some T)
      (hrows : List.Forall₂ (Comes (fun r => r.session_id = id ∧ r.tenant_id = T)
        (SessionRow.setStatus .live)) schema.translation_sessions.rows
        schema'.translation_sessions.rows)
  | closed (id T : Uuid) (status : Status) (reason : Option String)
      (hstatus : status = .ended ∨ status = .failed)
      (hrows : List.Forall₂ (Comes (fun r => r.session_id = id ∧ r.tenant_id = T ∧ r.ended_at = none)
        (SessionRow.close status reason turn.now)) schema.translation_sessions.rows
        schema'.translation_sessions.rows)
      (hnot : ¬ Reopens schema turn)

variable {schema schema' : Schema Uuid} {turn : Turn}

/-- A `mark_live` of a row that is there goes through. -/
theorem markLive_ok {store : SessionStore} {session_id : String} {r : SessionRow Uuid}
    (hr : r ∈ schema.translation_sessions.rows)
    (hid : UuidText.cast session_id = some r.session_id)
    (hT : UuidText.cast store.tenant.tenant_id = some r.tenant_id) :
    ∃ schema', store.markLive schema session_id = .ok schema' := by
  have hlive : ∀ x : SessionRow Uuid, ∃ x', x.setStatus .live = .ok x' := fun x => ⟨_, dif_pos nofun⟩
  obtain ⟨schema', changed, hupdate⟩ := schema.updateSessions_ok
    (fun x => x.session_id = r.session_id ∧ x.tenant_id = r.tenant_id)
    (fun _ _ hf => (SessionRow.setStatus_eq_ok hf).1) fun x _ _ => hlive x
  have hne : changed ≠ [] := by
    intro hnil
    obtain ⟨r', hr'⟩ := hlive r
    have hmem := ((Schema.updateSessions_eq_ok hupdate).2.1 r').mpr ⟨r, hr, by simp, hr'⟩
    rw [hnil] at hmem
    cases hmem
  refine ⟨schema', bind_eq_ok.mpr ⟨_, SessionStore.uuid_eq_ok.mpr hid, ?_⟩⟩
  refine bind_eq_ok.mpr ⟨_, SessionStore.uuid_eq_ok.mpr hT, bind_eq_ok.mpr ⟨_, hupdate, ?_⟩⟩
  exact if_neg hne

/-- A call that raises reopens nothing. -/
theorem not_reopens_of_error {e : StoreError}
    (h : turn.store.call turn.now schema turn.call = .error e) : ¬ Reopens schema turn := by
  rintro ⟨session_id, hcall, r, hr, hid, hT, -⟩
  obtain ⟨schema', hok⟩ := markLive_ok hr hid hT
  have hanswer : turn.store.call turn.now schema (.markLive session_id) = .ok (schema', .none) :=
    map_eq_ok.mpr ⟨schema', hok, rfl⟩
  rw [hcall, hanswer] at h
  cases h

omit [DecidableEq Uuid] in
theorem not_reopens_of_ne (hcall : ∀ session_id, turn.call ≠ .markLive session_id) :
    ¬ Reopens schema turn :=
  fun ⟨session_id, h, _⟩ => hcall session_id h

/-- A call that is answered does one of the four. -/
theorem wrote_of_ok {answer : Answer Uuid}
    (h : turn.store.call turn.now schema turn.call = .ok (schema', answer)) :
    Wrote schema schema' turn := by
  have hnot : (∀ session_id, turn.call ≠ .markLive session_id) → ¬ Reopens schema turn :=
    not_reopens_of_ne
  cases called_of_ok h with
  | createSession config latency_credible _ hcall hok =>
    obtain ⟨id, T, -, -, hrows, -⟩ := SessionStore.createSession_spec hok
    exact .created _ rfl rfl hrows (hnot (by simp [hcall]))
  | markLive session_id hcall hok =>
    obtain ⟨id, T, hid, hT, hrows, -⟩ := SessionStore.updateStatus_spec hok
    exact .marked session_id id T hcall (SessionStore.uuid_eq_ok.mp hid)
      (SessionStore.uuid_eq_ok.mp hT) hrows
  | endSession session_id failure_reason _ hcall hok =>
    obtain ⟨id, T, status, -, hstatus, hrows, -⟩ := SessionStore.endSession_spec hok
    exact .closed id T status failure_reason hstatus hrows (hnot (by simp [hcall]))
  | listenerJoined _ _ _ _ hcall hok =>
    obtain ⟨_, -, -, hsame, -⟩ := SessionStore.listenerJoined_spec hok
    exact .nothing (by rw [hsame]) (hnot (by simp [hcall]))
  | listenerLeft _ hcall hok =>
    obtain ⟨_, _, -, -, hsame, -⟩ := SessionStore.listenerLeft_spec hok
    exact .nothing (by rw [hsame]) (hnot (by simp [hcall]))
  | recordTranscript _ _ hcall hok =>
    obtain ⟨_, _, _, -, -, hupsert⟩ := SessionStore.recordTranscript_spec.mp hok
    exact .nothing (by rw [(Schema.upsertTranscript_eq_ok hupsert).2.1]) (hnot (by simp [hcall]))
  | reads hcall hsame =>
    refine .nothing (by rw [hsame]) (hnot ?_)
    intro session_id hmark
    rw [hmark] at hcall
    exact hcall

/-- A step of the calls does one of the four. -/
theorem wrote_of_step (h : schemaRuns.step schema turn = some schema') : Wrote schema schema' turn := by
  cases h
  cases hcall : turn.store.call turn.now schema turn.call with
  | ok answer =>
    have hafter : turn.store.after turn.now schema turn.call = answer.1 := by
      unfold SessionStore.after
      rw [hcall]
    rw [hafter]
    exact wrote_of_ok hcall
  | error e =>
    have hafter : turn.store.after turn.now schema turn.call = schema := by
      unfold SessionStore.after
      rw [hcall]
    rw [hafter]
    exact .nothing rfl (not_reopens_of_error hcall)

/-! ## Rows that are over, and rows that are closed -/

/-- A row that is over is closed. -/
def Settled (schema : Schema Uuid) : Prop :=
  ∀ r ∈ schema.translation_sessions.rows, r.Over → r.ended_at.isSome = true

/-- A row is closed, and its status does not say so. -/
def Reopened (schema : Schema Uuid) : Prop :=
  ∃ r ∈ schema.translation_sessions.rows, r.ended_at.isSome = true ∧ ¬ r.Over

omit [DecidableEq Uuid] [UuidText Uuid] in
theorem truthful_iff (hsettled : Settled schema) : Truthful schema ↔ ¬ Reopened schema := by
  constructor
  · rintro htruth ⟨r, hr, hended, hover⟩
    exact hover ((htruth r hr).mpr hended)
  · intro hnot r hr
    refine ⟨hsettled r hr, ?_⟩
    intro hended
    by_contra hover
    exact hnot ⟨r, hr, hended, hover⟩

theorem settled_step (hwrote : Wrote schema schema' turn) (hsettled : Settled schema) :
    Settled schema' := by
  intro r' hr' hover
  cases hwrote with
  | nothing hsame => exact hsettled r' (hsame ▸ hr') hover
  | created row hstatus _ hrows =>
    rw [hrows, List.mem_append, List.mem_singleton] at hr'
    rcases hr' with hr' | rfl
    · exact hsettled r' hr' hover
    · simp [SessionRow.Over, hstatus] at hover
  | marked _ _ _ _ _ _ hrows =>
    obtain ⟨r, hr, ⟨-, hf⟩ | ⟨-, rfl⟩⟩ := mem_change hrows hr'
    · simp [SessionRow.Over, (SessionRow.setStatus_eq_ok hf).2.2.1] at hover
    · exact hsettled r' hr hover
  | closed _ _ _ _ _ hrows =>
    obtain ⟨r, hr, ⟨-, hf⟩ | ⟨-, rfl⟩⟩ := mem_change hrows hr'
    · simp [(SessionRow.close_eq_ok hf).2.2.2.1]
    · exact hsettled r' hr hover

/-- A closed row stays, and stays closed. Its status stays, or it is live. -/
theorem closed_step (hwrote : Wrote schema schema' turn) {r : SessionRow Uuid}
    (hr : r ∈ schema.translation_sessions.rows) (hended : r.ended_at.isSome = true) :
    ∃ r' ∈ schema'.translation_sessions.rows, r'.session_id = r.session_id ∧
      r'.ended_at = r.ended_at ∧ (r'.status = r.status ∨ r'.status = .live) := by
  cases hwrote with
  | nothing hsame => exact ⟨r, hsame ▸ hr, rfl, rfl, .inl rfl⟩
  | created row _ _ hrows =>
    refine ⟨r, ?_, rfl, rfl, .inl rfl⟩
    rw [hrows]
    exact List.mem_append_left _ hr
  | marked _ _ _ _ _ _ hrows =>
    obtain ⟨r', hr', ⟨-, hf⟩ | ⟨-, rfl⟩⟩ := change_mem hrows hr
    · obtain ⟨hid, -, hstatus, hsame⟩ := SessionRow.setStatus_eq_ok hf
      exact ⟨r', hr', hid, hsame, .inr hstatus⟩
    · exact ⟨r', hr', rfl, rfl, .inl rfl⟩
  | closed _ _ _ _ _ hrows =>
    obtain ⟨r', hr', ⟨hpick, -⟩ | ⟨-, rfl⟩⟩ := change_mem hrows hr
    · simp only [decide_eq_true_eq] at hpick
      simp [hpick.2.2] at hended
    · exact ⟨r', hr', rfl, rfl, .inl rfl⟩

theorem reopened_kept (hwrote : Wrote schema schema' turn) (h : Reopened schema) :
    Reopened schema' := by
  obtain ⟨r, hr, hended, hover⟩ := h
  obtain ⟨r', hr', -, hsame, hstatus⟩ := closed_step hwrote hr hended
  refine ⟨r', hr', hsame ▸ hended, ?_⟩
  unfold SessionRow.Over at hover ⊢
  rcases hstatus with hstatus | hstatus
  · rwa [hstatus]
  · simp [hstatus]

theorem reopened_of_reopens (hwrote : Wrote schema schema' turn) (h : Reopens schema turn) :
    Reopened schema' := by
  cases hwrote with
  | nothing _ hnot | created _ _ _ _ hnot | closed _ _ _ _ _ _ hnot => exact absurd h hnot
  | marked session_id id T hcall hid hT hrows =>
    obtain ⟨session_id', hcall', r, hr, hid', hT', hended⟩ := h
    rw [hcall, StoreCall.markLive.injEq] at hcall'
    subst hcall'
    rw [hid, Option.some.injEq] at hid'
    rw [hT, Option.some.injEq] at hT'
    obtain ⟨r', hr', ⟨-, hf⟩ | ⟨hpick, -⟩⟩ := change_mem hrows hr
    · obtain ⟨-, -, hstatus, hsame⟩ := SessionRow.setStatus_eq_ok hf
      exact ⟨r', hr', hsame ▸ hended, by simp [SessionRow.Over, hstatus]⟩
    · simp [hid', hT'] at hpick

theorem reopened_was (hwrote : Wrote schema schema' turn) (h : Reopened schema') :
    Reopened schema ∨ Reopens schema turn := by
  obtain ⟨r', hr', hended, hover⟩ := h
  cases hwrote with
  | nothing hsame => exact .inl ⟨r', hsame ▸ hr', hended, hover⟩
  | created row _ hopen hrows =>
    rw [hrows, List.mem_append, List.mem_singleton] at hr'
    rcases hr' with hr' | rfl
    · exact .inl ⟨r', hr', hended, hover⟩
    · simp [hopen] at hended
  | marked session_id id T hcall hid hT hrows =>
    obtain ⟨r, hr, ⟨hpick, hf⟩ | ⟨-, rfl⟩⟩ := mem_change hrows hr'
    · simp only [decide_eq_true_eq] at hpick
      rw [(SessionRow.setStatus_eq_ok hf).2.2.2] at hended
      exact .inr ⟨session_id, hcall, r, hr, hpick.1 ▸ hid, hpick.2 ▸ hT, hended⟩
    · exact .inl ⟨r', hr, hended, hover⟩
  | closed _ _ _ _ hstatus hrows =>
    obtain ⟨r, hr, ⟨-, hf⟩ | ⟨-, rfl⟩⟩ := mem_change hrows hr'
    · rw [SessionRow.Over, (SessionRow.close_eq_ok hf).2.2.1] at hover
      exact absurd hstatus hover
    · exact .inl ⟨r', hr, hended, hover⟩

/-! ## Shut sessions -/

/-- A session whose row is over is shut. -/
theorem shut_of_over {r : SessionRow Uuid} (hr : r ∈ schema.translation_sessions.rows)
    (hover : r.Over) : Shut schema r.session_id := by
  have hrefused : ¬ Admits r.status := by
    rcases hover with hover | hover <;> simp [Admits, hover]
  refine ⟨?_, ?_⟩
  · intro store rows hlist x hx hid
    obtain ⟨hmem, -, hadmits⟩ := SessionStore.liveSessions_spec hlist hx
    rw [Table.eq_of_key_eq hmem hr hid] at hadmits
    exact hrefused hadmits
  · intro app db request endpoint store x hload hdb hid
    have hmem := App.load_mem hload
    rw [hdb] at hmem
    rw [← Table.eq_of_key_eq hmem hr hid] at hrefused
    exact App.post_refuses hload hrefused

/-! ## The law of the closed sessions -/

omit [DecidableEq Uuid] [UuidText Uuid] in
theorem settled_start : Settled (Schema.empty : Schema Uuid) := by
  intro r hr
  cases hr

/-- Some row of a reached state is closed and says otherwise exactly when a
call of the run reopened one. -/
theorem reopened_iff {turns : List Turn} (h : schemaRuns.run turns = some schema) :
    Reopened schema ↔ ∃ before turn after, ∃ s : Schema Uuid, turns = before ++ turn :: after ∧
      schemaRuns.run before = some s ∧ Reopens s turn := by
  refine schemaRuns.flag_iff (P := Settled) Reopened Reopens settled_start
    (fun _ _ _ hs hstep => settled_step (wrote_of_step hstep) hs) ?_ (fun s turn t _ hstep => ?_) h
  · rintro ⟨r, hr, -⟩
    cases hr
  · have hwrote := wrote_of_step hstep
    exact ⟨reopened_was hwrote, fun h => h.elim (reopened_kept hwrote) (reopened_of_reopens hwrote)⟩

/-- In whatever order the stores make their calls, the status of a row says
whether it is closed, and a closed session stays shut, exactly when no call
marks live a row that is closed already. -/
theorem a_closed_session_stays_closed_iff_it_is_not_marked_live (turns : List Turn) :
    KeepsClosed Uuid turns ↔ ∀ before turn after (s : Schema Uuid), turns = before ++ turn :: after →
      schemaRuns.run before = some s → ¬ Reopens s turn := by
  have hsettled : ∀ {turns} {s : Schema Uuid}, schemaRuns.run turns = some s → Settled s :=
    fun hrun => schemaRuns.invariant (P := Settled) settled_start
      (fun _ _ _ hs hstep => settled_step (wrote_of_step hstep) hs) ⟨_, hrun⟩
  constructor
  · intro hkeeps before turn after s hturns hrun hreopens
    obtain ⟨t, hend, -⟩ := schemaRuns.run_total (P := fun _ : Schema Uuid => True) trivial
      (fun _ _ _ => ⟨_, rfl, trivial⟩) turns
    have htruth := (hkeeps turns [] [] t t (by simp) hend rfl).1
    exact (truthful_iff (hsettled hend)).mp htruth
      ((reopened_iff hend).mpr ⟨before, turn, after, s, hturns, hrun, hreopens⟩)
  · intro hnone before after rest s t hturns hrun hafter
    have hend : schemaRuns.run (before ++ after) = some t :=
      schemaRuns.run_append_some.mpr ⟨s, hrun, hafter⟩
    have htruth : Truthful t := by
      apply (truthful_iff (hsettled hend)).mpr
      intro hreopened
      obtain ⟨xs, turn, ys, u, hsplit, hu, hreopens⟩ := (reopened_iff hend).mp hreopened
      refine hnone xs turn (ys ++ rest) u ?_ hu hreopens
      rw [hturns, hsplit, List.append_assoc, List.cons_append]
    refine ⟨htruth, ?_⟩
    intro r hr hended
    -- the closed row is carried along the calls that come after it
    obtain ⟨r', hr', hid, hended'⟩ := schemaRuns.kept (P := fun u : Schema Uuid =>
      ∃ r' ∈ u.translation_sessions.rows, r'.session_id = r.session_id ∧ r'.ended_at.isSome = true)
      (fun u turn v ⟨x, hx, hxid, hxended⟩ hstep => by
        obtain ⟨x', hx', hid, hsame, -⟩ := closed_step (wrote_of_step hstep) hx hxended
        exact ⟨x', hx', hid.trans hxid, hsame ▸ hxended⟩) ⟨r, hr, rfl, hended⟩ hafter
    rw [← hid]
    exact shut_of_over hr' ((htruth r' hr').mpr hended')

end

open canonical

/-- A session is superseded by another process while its owner still loads its
models, and then its owner marks it live. -/
def supersededKeynote : List Turn :=
  let store : SessionStore := ⟨SessionConfig.keynote.tenant⟩
  let session_id := SessionConfig.keynote.session_id
  [⟨store, 0, .createSession .keynote true⟩, ⟨store, 1, .endSession session_id (some "superseded")⟩,
    ⟨store, 2, .markLive session_id⟩]

theorem supersededKeynote_evaluated :
    ((schemaRuns.run supersededKeynote : Option (Schema String)).map fun s =>
      s.translation_sessions.rows.map fun r => (r.status, r.ended_at)) = some [(.live, some 1)] := by
  decide +kernel

/-- The superseded session is closed and live. -/
theorem a_superseded_session_comes_back : ¬ KeepsClosed String supersededKeynote := by
  intro hkeeps
  obtain ⟨s, hrun, hrows⟩ := Option.map_eq_some_iff.mp supersededKeynote_evaluated
  have htruth := (hkeeps supersededKeynote [] [] s s (by simp) hrun rfl).1
  obtain ⟨r, hr, hrow⟩ : ∃ r ∈ s.translation_sessions.rows, (r.status, r.ended_at) = (.live, some 1) := by
    rw [← List.mem_map, hrows]
    exact List.mem_singleton.mpr rfl
  simp only [Prod.mk.injEq] at hrow
  have hover := (htruth r hr).mpr (by rw [hrow.2]; rfl)
  simp [SessionRow.Over, hrow.1] at hover

end lad_translate.sessions
