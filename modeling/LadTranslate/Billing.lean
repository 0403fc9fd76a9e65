-- The billing of a session (db/sessions.py, `end_session`) over every order of
-- the calls of any number of stores: one call settles it, and what that call
-- wrote stays.
import LadTranslate.Closing

open fallible tables

namespace lad_translate.sessions

open config

section

variable {Uuid : Type}

/-! ## What the rows keep -/

/-- What `end_session` writes down: when, for how long, and for how many languages. -/
def SessionRow.settled (r : SessionRow Uuid) : Option ℚ × Option Nat × Option Nat :=
  (r.ended_at, r.billed_seconds, r.billed_language_count)

/-- What a row has from its creation. -/
def SessionRow.origin (r : SessionRow Uuid) : Uuid × ℚ × List String :=
  (r.session_id, r.started_at, r.target_languages)

theorem SessionRow.setStatus_keeps {status : Status} {r r' : SessionRow Uuid}
    (h : r.setStatus status = .ok r') : r'.settled = r.settled ∧ r'.origin = r.origin := by
  unfold setStatus at h
  split at h <;> cases h
  exact ⟨rfl, rfl⟩

theorem SessionRow.close_keeps {status : Status} {failure_reason : Option String} {now : ℚ}
    {r r' : SessionRow Uuid} (h : r.close status failure_reason now = .ok r') :
    r'.origin = r.origin := by
  unfold close at h
  split at h
  · split at h <;> cases h
    rfl
  · cases h

theorem SessionRow.close_settled {status : Status} {failure_reason : Option String} {now : ℚ}
    {r r' : SessionRow Uuid} (h : r.close status failure_reason now = .ok r') :
    r'.settled = (some now, some ⌈now - r.started_at⌉.toNat, some r.target_languages.length) := by
  obtain ⟨-, -, -, hended, hseconds, hcount⟩ := SessionRow.close_eq_ok h
  rw [SessionRow.settled, hended, hseconds, hcount]

variable [DecidableEq Uuid] [UuidText Uuid]

/-! ## The calls that end a session -/

/-- The call ends the session, whoever's it is. -/
def Turn.Ends (turn : Turn) (session_id : Uuid) : Prop :=
  ∃ text failure_reason, turn.call = .endSession text failure_reason ∧
    UuidText.cast text = some session_id

/-- The call ends the session and returns what it is charged for. -/
def Turn.Bills (turn : Turn) (session_id : Uuid) (schema schema' : Schema Uuid)
    (billing : SessionBilling) : Prop :=
  turn.Ends session_id ∧
    turn.store.call turn.now schema turn.call = .ok (schema', .billing billing)

/-- The call creates the session, with the configuration. -/
def Turn.Creates (turn : Turn) (session_id : Uuid) (schema schema' : Schema Uuid)
    (config : SessionConfig) : Prop :=
  (∃ latency_credible, turn.call = .createSession config latency_credible) ∧
    UuidText.cast config.session_id = some session_id ∧
    ∃ text, turn.store.call turn.now schema turn.call = .ok (schema', .id text)

/-- The database clock is never behind the start of the session that a call ends. -/
def ClockKept (turns : List Turn) (session_id : Uuid) : Prop :=
  ∀ before turn after (s : Schema Uuid), turns = before ++ turn :: after →
    schemaRuns.run before = some s → turn.Ends session_id →
    ∀ r ∈ s.translation_sessions.rows, r.session_id = session_id → r.started_at ≤ turn.now

/-- The session is billed once, for what it was created with, and what was
billed stays. -/
structure BilledOnce (turns : List Turn) (session_id : Uuid) : Prop where
  once : ∀ before turn after before' turn' after' (s t s' t' : Schema Uuid) billing billing',
    turns = before ++ turn :: after → turns = before' ++ turn' :: after' →
    schemaRuns.run before = some s → schemaRuns.run before' = some s' →
    turn.Bills session_id s t billing → turn'.Bills session_id s' t' billing' →
    before = before'
  frozen : ∀ before turn after rest (s t u : Schema Uuid) billing,
    turns = before ++ turn :: after ++ rest → schemaRuns.run before = some s →
    turn.Bills session_id s t billing → schemaRuns.runFrom t after = some u →
    ∃ r ∈ u.translation_sessions.rows, r.session_id = session_id ∧
      r.settled = (some turn.now, some billing.seconds, some billing.language_count)
  refused : ∀ before turn after (s : Schema Uuid), turns = before ++ turn :: after →
    schemaRuns.run before = some s → turn.Ends session_id →
    (¬ ∃ t billing, turn.Bills session_id s t billing) →
    turn.store.after turn.now s turn.call = s ∧
      (∃ e, turn.store.call turn.now s turn.call = .error e) ∧
      ((UuidText.cast turn.store.tenant.tenant_id : Option Uuid).isSome →
        ∃ text, turn.store.call turn.now s turn.call = .error (.lookupError text))
  quantity : ∀ before turn after (s t : Schema Uuid) billing, turns = before ++ turn :: after →
    schemaRuns.run before = some s → turn.Bills session_id s t billing →
    ∃ first create second config, ∃ s₁ s₂ : Schema Uuid, before = first ++ create :: second ∧
      schemaRuns.run first = some s₁ ∧ create.Creates session_id s₁ s₂ config ∧
      (billing.languageSeconds : ℤ) = ⌈turn.now - create.now⌉ * config.targetCodes.length

variable {schema schema' : Schema Uuid} {store : SessionStore} {now : ℚ} {text : String}

omit [DecidableEq Uuid] [UuidText Uuid] in
/-- A row that starts no later than now can be closed. -/
theorem SessionRow.close_ok {r : SessionRow Uuid} (failure_reason : Option String)
    (hclock : r.started_at ≤ now) :
    ∃ r', r.close (if failure_reason.getD "" = "" then .ended else .failed) failure_reason now =
      .ok r' := by
  unfold close
  rw [dif_pos hclock]
  refine ⟨_, dif_pos ?_⟩
  cases failure_reason <;> simp

/-- An open session of the tenant is ended, and billed from its row. -/
theorem endSession_bills {r : SessionRow Uuid} (failure_reason : Option String)
    (hr : r ∈ schema.translation_sessions.rows)
    (hid : UuidText.cast text = some r.session_id)
    (hT : UuidText.cast store.tenant.tenant_id = some r.tenant_id) (hopen : r.ended_at = none)
    (hclock : r.started_at ≤ now) :
    ∃ schema' billing, store.endSession now schema text failure_reason = .ok (schema', billing) ∧
      billing.seconds = ⌈now - r.started_at⌉.toNat ∧
      billing.language_count = r.target_languages.length ∧
      ∃ r' ∈ schema'.translation_sessions.rows, r'.session_id = r.session_id ∧
        r'.settled = (some now, some billing.seconds, some billing.language_count) := by
  obtain ⟨r', hclose⟩ := r.close_ok failure_reason hclock
  obtain ⟨schema', more, hupdate, hr'⟩ := Schema.updateSessions_one
    (fun x => x.session_id = r.session_id ∧ x.tenant_id = r.tenant_id ∧ x.ended_at = none)
    (fun _ _ hf => (SessionRow.close_eq_ok hf).1) hr (fun x hx => by
      rw [decide_eq_true_eq]
      constructor
      · rintro ⟨hkey, -⟩
        exact Table.eq_of_key_eq hx hr hkey
      · rintro rfl
        exact ⟨rfl, rfl, hopen⟩) hclose
  have hsettled := SessionRow.close_settled hclose
  simp only [SessionRow.settled, Prod.mk.injEq] at hsettled
  obtain ⟨hended, hseconds, hcount⟩ := hsettled
  refine ⟨schema', ⟨text, store.tenant.tenant_id, r'.billed_seconds.getD 0,
    r'.billed_language_count.getD 0⟩, ?_, ?_, ?_, r', hr', (SessionRow.close_eq_ok hclose).1, ?_⟩
  · refine bind_eq_ok.mpr ⟨_, SessionStore.uuid_eq_ok.mpr hid, ?_⟩
    exact bind_eq_ok.mpr ⟨_, SessionStore.uuid_eq_ok.mpr hT, bind_eq_ok.mpr ⟨_, hupdate, rfl⟩⟩
  · rw [hseconds]
    rfl
  · rw [hcount]
    rfl
  · rw [SessionRow.settled, hended, hseconds, hcount]
    rfl

/-- With no open session of the tenant, the call raises `LookupError`. -/
theorem endSession_refuses {id T : Uuid} (now : ℚ) (failure_reason : Option String)
    (hid : UuidText.cast text = some id)
    (hT : UuidText.cast store.tenant.tenant_id = some T)
    (hnone : ∀ r ∈ schema.translation_sessions.rows, r.session_id = id → r.tenant_id = T →
      r.ended_at ≠ none) :
    store.endSession now schema text failure_reason =
      .error (.lookupError ("session " ++ text ++ " not found for tenant " ++
        store.tenant.tenant_id ++ ", or already ended")) := by
  obtain ⟨schema', hupdate⟩ := Schema.updateSessions_none
    (fun x => x.session_id = id ∧ x.tenant_id = T ∧ x.ended_at = none)
    (f := SessionRow.close (if failure_reason.getD "" = "" then .ended else .failed)
      failure_reason now)
    (fun _ _ hf => (SessionRow.close_eq_ok hf).1) fun x hx => by
      rw [decide_eq_false_iff_not]
      rintro ⟨hxid, hxT, hopen⟩
      exact hnone x hx hxid hxT hopen
  unfold SessionStore.endSession
  rw [SessionStore.uuid_eq_ok.mpr hid, SessionStore.tenantUuid, SessionStore.uuid_eq_ok.mpr hT]
  simp only [bind, Except.bind, hupdate]
  rfl

/-- A call that ends the session, by a tenant's store, bills an open session of
the tenant, or raises `LookupError`. -/
theorem ends_cases {turn : Turn} {id T : Uuid} (hends : turn.Ends id)
    (hT : UuidText.cast turn.store.tenant.tenant_id = some T)
    (hclock : ∀ r ∈ schema.translation_sessions.rows, r.session_id = id →
      r.started_at ≤ turn.now) :
    (∃ r ∈ schema.translation_sessions.rows, r.session_id = id ∧ r.ended_at = none ∧
      ∃ schema' billing, turn.Bills id schema schema' billing ∧
        billing.seconds = ⌈turn.now - r.started_at⌉.toNat ∧
        billing.language_count = r.target_languages.length ∧
        ∃ r' ∈ schema'.translation_sessions.rows, r'.session_id = id ∧
          r'.settled = (some turn.now, some billing.seconds, some billing.language_count)) ∨
    ∃ why, turn.store.call turn.now schema turn.call = .error (.lookupError why) := by
  have hends' := hends
  obtain ⟨text, failure_reason, hcall, hid⟩ := hends'
  by_cases hopen : ∃ r ∈ schema.translation_sessions.rows, r.session_id = id ∧ r.tenant_id = T ∧
      r.ended_at = none
  · obtain ⟨r, hr, rfl, rfl, hopen⟩ := hopen
    obtain ⟨schema', billing, hok, hseconds, hcount, r', hr', hrid, hsettled⟩ :=
      endSession_bills failure_reason hr hid hT hopen (hclock r hr rfl)
    refine .inl ⟨r, hr, rfl, hopen, schema', billing, ⟨hends, ?_⟩, hseconds, hcount, r', hr', hrid,
      hsettled⟩
    rw [hcall]
    exact map_eq_ok.mpr ⟨_, hok, rfl⟩
  · have hrefused := endSession_refuses turn.now failure_reason hid hT
      fun r hr hrid hrT hnone => hopen ⟨r, hr, hrid, hrT, hnone⟩
    right
    rw [hcall, SessionStore.call, hrefused]
    exact ⟨_, rfl⟩

/-- Where the store's tenant is no uuid, the call raises as well. -/
theorem call_of_no_tenant {turn : Turn} {id : Uuid} (hends : turn.Ends id)
    (hT : (UuidText.cast turn.store.tenant.tenant_id : Option Uuid) = none) :
    ∃ e, turn.store.call turn.now schema turn.call = .error e := by
  obtain ⟨text, failure_reason, hcall, hid⟩ := hends
  refine ⟨.databaseError ("DataError: invalid UUID " ++ turn.store.tenant.tenant_id), ?_⟩
  have htenant : (turn.store.tenantUuid : Except StoreError Uuid) =
      .error (.databaseError ("DataError: invalid UUID " ++ turn.store.tenant.tenant_id)) := by
    rw [SessionStore.tenantUuid, SessionStore.uuid, hT]
  rw [hcall, SessionStore.call, SessionStore.endSession, SessionStore.uuid_eq_ok.mpr hid, htenant]
  rfl

/-- A call that bills takes an open session, and settles its row. -/
theorem bills_spec {turn : Turn} {id : Uuid} {billing : SessionBilling}
    (h : turn.Bills id schema schema' billing)
    (hclock : ∀ r ∈ schema.translation_sessions.rows, r.session_id = id →
      r.started_at ≤ turn.now) :
    (∃ r ∈ schema.translation_sessions.rows, r.session_id = id ∧ r.ended_at = none ∧
      billing.seconds = ⌈turn.now - r.started_at⌉.toNat ∧
      billing.language_count = r.target_languages.length) ∧
    ∃ r' ∈ schema'.translation_sessions.rows, r'.session_id = id ∧
      r'.settled = (some turn.now, some billing.seconds, some billing.language_count) := by
  obtain ⟨hends, hok⟩ := h
  obtain ⟨T, hT⟩ : ∃ T : Uuid, UuidText.cast turn.store.tenant.tenant_id = some T := by
    obtain ⟨text, failure_reason, hcall, -⟩ := hends
    rw [hcall] at hok
    obtain ⟨⟨_, _⟩, hend, -⟩ := map_eq_ok.mp hok
    obtain ⟨_, T, _, hT, -⟩ := SessionStore.endSession_spec hend
    exact ⟨T, SessionStore.uuid_eq_ok.mp hT⟩
  rcases ends_cases hends hT hclock with
    ⟨r, hr, hrid, hopen, t, b, ⟨-, hok'⟩, hseconds, hcount, hsettled⟩ | ⟨why, herror⟩
  · rw [hok] at hok'
    cases hok'
    exact ⟨⟨r, hr, hrid, hopen, hseconds, hcount⟩, hsettled⟩
  · rw [hok] at herror
    cases herror

/-! ## What the other calls leave -/

/-- A settled row stays as it is settled, whatever is called. -/
theorem settled_kept {turn : Turn} (hwrote : Wrote schema schema' turn) {r : SessionRow Uuid}
    (hr : r ∈ schema.translation_sessions.rows) (hended : r.ended_at.isSome = true) :
    ∃ r' ∈ schema'.translation_sessions.rows, r'.session_id = r.session_id ∧
      r'.settled = r.settled := by
  cases hwrote with
  | nothing hsame => exact ⟨r, hsame ▸ hr, rfl, rfl⟩
  | created row _ _ hrows =>
    refine ⟨r, ?_, rfl, rfl⟩
    rw [hrows]
    exact List.mem_append_left _ hr
  | marked _ _ _ _ _ _ hrows =>
    obtain ⟨r', hr', ⟨-, hf⟩ | ⟨-, rfl⟩⟩ := change_mem hrows hr
    · exact ⟨r', hr', (SessionRow.setStatus_eq_ok hf).1, (SessionRow.setStatus_keeps hf).1⟩
    · exact ⟨r', hr', rfl, rfl⟩
  | closed _ _ _ _ _ hrows =>
    obtain ⟨r', hr', ⟨hpick, -⟩ | ⟨-, rfl⟩⟩ := change_mem hrows hr
    · rw [(of_decide_eq_true hpick).2.2] at hended
      cases hended
    · exact ⟨r', hr', rfl, rfl⟩

/-- Along the calls that come after it, a settled row stays as it is settled. -/
theorem settled_along {turns : List Turn} {r : SessionRow Uuid}
    (hr : r ∈ schema.translation_sessions.rows) (hended : r.ended_at.isSome = true)
    (h : schemaRuns.runFrom schema turns = some schema') :
    ∃ r' ∈ schema'.translation_sessions.rows, r'.session_id = r.session_id ∧
      r'.settled = r.settled := by
  refine schemaRuns.kept (P := fun s : Schema Uuid => ∃ r' ∈ s.translation_sessions.rows,
    r'.session_id = r.session_id ∧ r'.settled = r.settled) ?_ ⟨r, hr, rfl, rfl⟩ h
  rintro s turn t ⟨x, hx, hxid, hxsettled⟩ hstep
  have hxended : x.ended_at.isSome = true := by
    rw [show x.ended_at = r.ended_at from congrArg Prod.fst hxsettled]
    exact hended
  obtain ⟨x', hx', hid, hsettled⟩ := settled_kept (wrote_of_step hstep) hx hxended
  exact ⟨x', hx', hid.trans hxid, hsettled.trans hxsettled⟩

/-- Only `create_session` adds a row. -/
theorem rows_counted {turn : Turn} {answer : Answer Uuid}
    (h : turn.store.call turn.now schema turn.call = .ok (schema', answer))
    (hnot : ∀ config latency_credible, turn.call ≠ .createSession config latency_credible) :
    schema'.translation_sessions.rows.length = schema.translation_sessions.rows.length := by
  cases called_of_ok h with
  | createSession config latency_credible _ hcall => exact absurd hcall (hnot config latency_credible)
  | markLive _ _ hok =>
    obtain ⟨_, _, -, -, hrows, -⟩ := SessionStore.updateStatus_spec hok
    exact hrows.length_eq.symm
  | endSession _ _ _ _ hok =>
    obtain ⟨_, _, _, -, -, hrows, -⟩ := SessionStore.endSession_spec hok
    exact hrows.length_eq.symm
  | listenerJoined _ _ _ _ _ hok =>
    obtain ⟨_, -, -, hsame, -⟩ := SessionStore.listenerJoined_spec hok
    rw [hsame]
  | listenerLeft _ _ hok =>
    obtain ⟨_, _, -, -, hsame, -⟩ := SessionStore.listenerLeft_spec hok
    rw [hsame]
  | recordTranscript _ _ _ hok =>
    obtain ⟨_, _, _, -, -, hupsert⟩ := SessionStore.recordTranscript_spec.mp hok
    rw [(Schema.upsertTranscript_eq_ok hupsert).2.1]
  | reads _ hsame => rw [hsame]

/-- A call that adds a row creates the session. -/
theorem creates_of_grows {turn : Turn} (hstep : schemaRuns.step schema turn = some schema')
    {row : SessionRow Uuid}
    (hrows : schema'.translation_sessions.rows = schema.translation_sessions.rows ++ [row]) :
    ∃ config, turn.Creates row.session_id schema schema' config ∧
      row.started_at = turn.now ∧ row.target_languages = config.targetCodes := by
  have hlength : schema'.translation_sessions.rows.length ≠
      schema.translation_sessions.rows.length := by simp [hrows]
  cases hstep
  unfold SessionStore.after at *
  cases hcall : turn.store.call turn.now schema turn.call with
  | error e => simp [hcall] at hlength
  | ok answer =>
    obtain ⟨schema', answer⟩ := answer
    simp only [hcall] at hrows hlength ⊢
    by_cases hcreate : ∃ config latency_credible, turn.call = .createSession config latency_credible
    · obtain ⟨config, latency_credible, hcreate⟩ := hcreate
      have hok := hcall
      rw [hcreate] at hok
      obtain ⟨⟨_, text⟩, hcreated, heq⟩ := map_eq_ok.mp hok
      cases heq
      obtain ⟨id, T, hid, -, happended, -⟩ := SessionStore.createSession_spec hcreated
      rw [happended] at hrows
      obtain rfl : SessionRow.starting config id T latency_credible turn.now = row := by
        simpa using hrows
      exact ⟨config, ⟨⟨_, hcreate⟩, SessionStore.uuid_eq_ok.mp hid, text, hcall⟩, rfl, rfl⟩
    · simp only [not_exists] at hcreate
      exact absurd (rows_counted hcall hcreate) hlength

/-- A row after a call was there before it, with the same origin, or the call
created it. -/
theorem origin_step {turn : Turn} (hstep : schemaRuns.step schema turn = some schema')
    {r' : SessionRow Uuid} (hr' : r' ∈ schema'.translation_sessions.rows) :
    (∃ r ∈ schema.translation_sessions.rows, r.origin = r'.origin) ∨
      ∃ config, turn.Creates r'.session_id schema schema' config ∧
        r'.started_at = turn.now ∧ r'.target_languages = config.targetCodes := by
  cases wrote_of_step hstep with
  | nothing hsame => exact .inl ⟨r', hsame ▸ hr', rfl⟩
  | created row _ _ hrows =>
    have hmem := hr'
    rw [hrows, List.mem_append, List.mem_singleton] at hmem
    rcases hmem with hmem | rfl
    · exact .inl ⟨r', hmem, rfl⟩
    · exact .inr (creates_of_grows hstep hrows)
  | marked _ _ _ _ _ _ hrows =>
    obtain ⟨r, hr, ⟨-, hf⟩ | ⟨-, rfl⟩⟩ := mem_change hrows hr'
    · exact .inl ⟨r, hr, (SessionRow.setStatus_keeps hf).2.symm⟩
    · exact .inl ⟨r', hr, rfl⟩
  | closed _ _ _ _ _ hrows =>
    obtain ⟨r, hr, ⟨-, hf⟩ | ⟨-, rfl⟩⟩ := mem_change hrows hr'
    · exact .inl ⟨r, hr, (SessionRow.close_keeps hf).symm⟩
    · exact .inl ⟨r', hr, rfl⟩

/-- Every row of a reached state goes back to the call that created it. -/
theorem created_of_run {turns : List Turn} (h : schemaRuns.run turns = some schema)
    {r : SessionRow Uuid} (hr : r ∈ schema.translation_sessions.rows) :
    ∃ first create second config, ∃ s t : Schema Uuid, turns = first ++ create :: second ∧
      schemaRuns.run first = some s ∧ create.Creates r.session_id s t config ∧
      r.started_at = create.now ∧ r.target_languages = config.targetCodes := by
  refine schemaRuns.run_induction (P := fun turns (u : Schema Uuid) =>
    ∀ r ∈ u.translation_sessions.rows, ∃ first create second config, ∃ s t : Schema Uuid,
      turns = first ++ create :: second ∧ schemaRuns.run first = some s ∧
      create.Creates r.session_id s t config ∧
      r.started_at = create.now ∧ r.target_languages = config.targetCodes) ?_ ?_ h r hr
  · intro r hr
    cases hr
  · intro turns u turn v hrun ih hstep r' hr'
    rcases origin_step hstep hr' with ⟨r, hr, horigin⟩ | ⟨config, hcreates, hstarted, htargets⟩
    · simp only [SessionRow.origin, Prod.mk.injEq] at horigin
      obtain ⟨hid, hstarted, htargets⟩ := horigin
      obtain ⟨first, create, second, config, s, t, rfl, hfirst, hcreates, hs, ht⟩ := ih r hr
      rw [hid] at hcreates
      exact ⟨first, create, second ++ [turn], config, s, t, by simp, hfirst, hcreates,
        hstarted ▸ hs, htargets ▸ ht⟩
    · exact ⟨turns, turn, [], config, u, v, rfl, hrun, hcreates, hstarted, htargets⟩

/-! ## The law of the billing -/

/-- After a call that bills, every call that ends the session is refused. -/
theorem not_bills_after {turn turn' : Turn} {id : Uuid} {billing billing' : SessionBilling}
    {between : List Turn} {s t s' t' : Schema Uuid} (hbills : turn.Bills id s t billing)
    (hclock : ∀ r ∈ s.translation_sessions.rows, r.session_id = id → r.started_at ≤ turn.now)
    (hclock' : ∀ r ∈ s'.translation_sessions.rows, r.session_id = id → r.started_at ≤ turn'.now)
    (hbetween : schemaRuns.runFrom t between = some s') : ¬ turn'.Bills id s' t' billing' := by
  intro hbills'
  obtain ⟨-, r, hr, hrid, hsettled⟩ := bills_spec hbills hclock
  have hended : r.ended_at = some turn.now := congrArg Prod.fst hsettled
  obtain ⟨r', hr', hrid', hsettled'⟩ := settled_along hr (by rw [hended]; rfl) hbetween
  obtain ⟨⟨x, hx, hxid, hopen, -⟩, -⟩ := bills_spec hbills' hclock'
  obtain rfl : r' = x := Table.eq_of_key_eq hr' hx (hrid'.trans (hrid.trans hxid.symm))
  rw [hsettled, SessionRow.settled, Prod.mk.injEq, hopen] at hsettled'
  cases hsettled'.1

/-- A step is the schema after its call. -/
theorem step_of_ok {turn : Turn} {answer : Answer Uuid}
    (h : turn.store.call turn.now schema turn.call = .ok (schema', answer)) :
    schemaRuns.step schema turn = some schema' := by
  simp only [schemaRuns, SessionStore.after, h]

/-- Of two calls that bill, none comes after the other. -/
theorem not_billed_later {turn turn' : Turn} {id : Uuid} {billing billing' : SessionBilling}
    {before mid : List Turn} {s t s' t' : Schema Uuid} (hrun : schemaRuns.run before = some s)
    (hrun' : schemaRuns.run (before ++ turn :: mid) = some s') (hbills : turn.Bills id s t billing)
    (hclock : ∀ r ∈ s.translation_sessions.rows, r.session_id = id → r.started_at ≤ turn.now)
    (hclock' : ∀ r ∈ s'.translation_sessions.rows, r.session_id = id → r.started_at ≤ turn'.now) :
    ¬ turn'.Bills id s' t' billing' := by
  obtain ⟨u, hu, hrest⟩ := schemaRuns.run_append_some.mp hrun'
  rw [hrun, Option.some.injEq] at hu
  subst hu
  rw [schemaRuns.runFrom_cons, step_of_ok hbills.2, Option.bind_some] at hrest
  exact not_bills_after hbills hclock hclock' hrest

end

open canonical

/-- A session is created, marked live and ended, and its owner ends it again. -/
def endedTwice : List Turn :=
  let store : SessionStore := ⟨SessionConfig.keynote.tenant⟩
  let session_id := SessionConfig.keynote.session_id
  [⟨store, 0, .createSession .keynote true⟩, ⟨store, 1, .markLive session_id⟩,
    ⟨store, 5 / 2, .endSession session_id none⟩, ⟨store, 4, .endSession session_id none⟩]

/-- The clock is kept when nothing comes before the creation of a session. -/
theorem clockKept_of_created {turns : List Turn} {session_id : String} (created : ℚ)
    (hnow : ∀ turn ∈ turns, created ≤ turn.now)
    (hcreate : ∀ create ∈ turns, ∀ config latency_credible,
      create.call = .createSession config latency_credible → create.now = created) :
    ClockKept turns session_id := by
  intro before turn after s hsplit hrun _ r hr _
  obtain ⟨first, create, second, config, _, _, rfl, -, ⟨⟨_, hcall⟩, -⟩, hstarted, -⟩ :=
    created_of_run hrun hr
  rw [hstarted, hcreate create (by simp [hsplit]) _ _ hcall]
  exact hnow turn (by simp [hsplit])

theorem endedTwice_clock : ClockKept endedTwice SessionConfig.keynote.session_id := by
  refine clockKept_of_created 0 ?_ ?_
  · simp only [endedTwice, List.forall_mem_cons]
    norm_num
  · intro create hmem config latency_credible hcall
    simp only [endedTwice, List.mem_cons, List.not_mem_nil, or_false] at hmem
    rcases hmem with rfl | rfl | rfl | rfl
    · rfl
    all_goals cases hcall

/-- A store whose tenant id is no uuid. Its context is accepted. -/
def stranger : SessionStore :=
  ⟨{ SessionConfig.keynote.tenant with tenant_id := "not-a-uuid", tenant_id_ne := by simp }⟩

/-- The call of that store to end the session. -/
def strangersEnd : Turn := ⟨stranger, 5, .endSession SessionConfig.keynote.session_id none⟩

theorem strangersEnd_answered : ((schemaRuns.run endedTwice : Option (Schema String)).map fun s =>
    match strangersEnd.store.call strangersEnd.now s strangersEnd.call with
    | .ok _ => none
    | .error e => some e) = some (some (.databaseError "DataError: invalid UUID not-a-uuid")) := by
  decide +kernel

end lad_translate.sessions
