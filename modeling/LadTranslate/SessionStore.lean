-- SessionStore (db/sessions.py): the statements on the tables of one schema.
-- A statement is atomic: it raises and changes nothing, or it is done. The
-- type uuid is the database's, with its cast from a text.
import LadTranslate.Config
import LadTranslate.Fallible
import LadTranslate.Rows
import LadTranslate.Tables

open fallible tables

namespace lad_translate.sessions

open config

/-- What the statements take from the database's type uuid: the cast of a
text, which fails on a text that is not a uuid, and the text of a uuid. -/
class UuidText (Uuid : Type) where
  cast : String → Option Uuid
  text : Uuid → String

namespace canonical

/-- The uuids as the texts that the database writes for them. -/
scoped instance : UuidText String where
  cast text :=
    if (text.toList.splitOn '-').map List.length = [8, 4, 4, 4, 12] ∧
        text.toList.all "-0123456789abcdef".toList.contains then some text
    else none
  text := id

end canonical

/-- What a call of the store raises. -/
inductive StoreError
  | valueError (text : String)
  | lookupError (text : String)
  | databaseError (text : String)
deriving DecidableEq, Repr

section

variable {Uuid : Type}

/-- The columns of the unique constraint of `session_transcripts`. -/
def StoredTranscript.key (r : StoredTranscript Uuid) : Uuid × Int × String :=
  (r.session_id, r.chunk_id, r.language)

/-- The tables of a schema, with their keys and their references. -/
structure Schema (Uuid : Type) where
  translation_sessions : Table (SessionRow Uuid) Uuid SessionRow.session_id
  session_listeners : Table (ListenerRow Uuid) Uuid ListenerRow.listener_id
  session_transcripts : Table (StoredTranscript Uuid) (Uuid × Int × String) StoredTranscript.key
  listeners_session_fk : ∀ r ∈ session_listeners.rows, r.session_id ∈ translation_sessions.rows.map (·.session_id)
  transcripts_session_fk : ∀ r ∈ session_transcripts.rows, r.session_id ∈ translation_sessions.rows.map (·.session_id)

/-- A schema after its migration. -/
def Schema.empty : Schema Uuid where
  translation_sessions := .empty
  session_listeners := .empty
  session_transcripts := .empty
  listeners_session_fk := by simp [Table.empty]
  transcripts_session_fk := by simp [Table.empty]

variable [DecidableEq Uuid]

namespace Schema

/-! ## Statements -/

def insertSession (schema : Schema Uuid) (row : SessionRow Uuid) : Except StoreError (Schema Uuid) :=
  match h : schema.translation_sessions.insert row with
  | none => .error (.databaseError "UniqueViolationError: translation_sessions_pkey")
  | some translation_sessions => .ok { schema with
      translation_sessions
      listeners_session_fk := fun r hr => by
        rw [(Table.insert_eq_some h).1, List.map_append]
        exact List.mem_append_left _ (schema.listeners_session_fk r hr)
      transcripts_session_fk := fun r hr => by
        rw [(Table.insert_eq_some h).1, List.map_append]
        exact List.mem_append_left _ (schema.transcripts_session_fk r hr) }

def updateSessions (schema : Schema Uuid) (pick : SessionRow Uuid → Bool)
    (f : SessionRow Uuid → Except StoreError (SessionRow Uuid))
    (hkey : ∀ r r', f r = .ok r' → r'.session_id = r.session_id) :
    Except StoreError (Schema Uuid × List (SessionRow Uuid)) :=
  match h : schema.translation_sessions.update pick f hkey with
  | .error e => .error e
  | .ok (translation_sessions, changed) => .ok ({ schema with
      translation_sessions
      listeners_session_fk := fun r hr => by
        rw [Table.update_keys h]
        exact schema.listeners_session_fk r hr
      transcripts_session_fk := fun r hr => by
        rw [Table.update_keys h]
        exact schema.transcripts_session_fk r hr }, changed)

def insertListener (schema : Schema Uuid) (row : ListenerRow Uuid) :
    Except StoreError (Schema Uuid) :=
  if hfk : row.session_id ∈ schema.translation_sessions.rows.map (·.session_id) then
    match h : schema.session_listeners.insert row with
    | none => .error (.databaseError "UniqueViolationError: session_listeners_pkey")
    | some session_listeners => .ok { schema with
        session_listeners
        listeners_session_fk := fun r hr => by
          rw [(Table.insert_eq_some h).1, List.mem_append, List.mem_singleton] at hr
          rcases hr with hr | rfl
          · exact schema.listeners_session_fk r hr
          · exact hfk }
  else .error (.databaseError "ForeignKeyViolationError: session_listeners_session_fk")

def updateListeners (schema : Schema Uuid) (pick : ListenerRow Uuid → Bool)
    (f : ListenerRow Uuid → Except StoreError (ListenerRow Uuid))
    (hkey : ∀ r r', f r = .ok r' → r'.listener_id = r.listener_id ∧ r'.session_id = r.session_id) :
    Except StoreError (Schema Uuid) :=
  match h : schema.session_listeners.update pick f fun r r' hf => (hkey r r' hf).1 with
  | .error e => .error e
  | .ok (session_listeners, _) => .ok { schema with
      session_listeners
      listeners_session_fk := fun r' hr' => by
        obtain ⟨r, hr, ⟨-, hf⟩ | ⟨-, rfl⟩⟩ := mem_change (Table.update_eq_ok h).1 hr'
        · rw [(hkey r r' hf).2]
          exact schema.listeners_session_fk r hr
        · exact schema.listeners_session_fk _ hr }

/-- `INSERT ... ON CONFLICT (session_id, chunk_id, language) DO UPDATE`: the
row that has the key is changed by `f`, whoever wrote it. -/
def upsertTranscript (schema : Schema Uuid) (row : StoredTranscript Uuid)
    (f : StoredTranscript Uuid → StoredTranscript Uuid) (hkey : ∀ r, (f r).key = r.key) :
    Except StoreError (Schema Uuid) :=
  if row.key ∈ schema.session_transcripts.rows.map StoredTranscript.key then
    match h : schema.session_transcripts.update (fun r => r.key = row.key)
        (fun r => (.ok (f r) : Except StoreError _)) (fun r r' hf => by cases hf; exact hkey r) with
    | .error e => .error e
    | .ok (session_transcripts, _) => .ok { schema with
        session_transcripts
        transcripts_session_fk := fun r' hr' => by
          obtain ⟨r, hr, ⟨-, hf⟩ | ⟨-, rfl⟩⟩ := mem_change (Table.update_eq_ok h).1 hr'
          · cases hf
            have hid : (f r).session_id = r.session_id := congrArg Prod.fst (hkey r)
            rw [hid]
            exact schema.transcripts_session_fk r hr
          · exact schema.transcripts_session_fk _ hr }
  else if hfk : row.session_id ∈ schema.translation_sessions.rows.map (·.session_id) then
    match h : schema.session_transcripts.insert row with
    | none => .error (.databaseError "UniqueViolationError: session_transcripts_chunk_language_unique")
    | some session_transcripts => .ok { schema with
        session_transcripts
        transcripts_session_fk := fun r hr => by
          rw [(Table.insert_eq_some h).1, List.mem_append, List.mem_singleton] at hr
          rcases hr with hr | rfl
          · exact schema.transcripts_session_fk r hr
          · exact hfk }
  else .error (.databaseError "ForeignKeyViolationError: session_transcripts_session_fk")

end Schema

/-! ## What the statements leave -/

namespace Schema

theorem insertSession_eq_ok {schema schema' : Schema Uuid} {row : SessionRow Uuid}
    (h : schema.insertSession row = .ok schema') :
    schema'.translation_sessions.rows = schema.translation_sessions.rows ++ [row] ∧
      row.session_id ∉ schema.translation_sessions.rows.map (·.session_id) ∧
      schema'.session_listeners = schema.session_listeners ∧
      schema'.session_transcripts = schema.session_transcripts := by
  unfold insertSession at h
  split at h
  · cases h
  · rename_i sessions hinsert
    cases h
    obtain ⟨hrows, hkey⟩ := Table.insert_eq_some hinsert
    exact ⟨hrows, hkey, rfl, rfl⟩

omit [DecidableEq Uuid] in
theorem updateSessions_eq_ok {schema schema' : Schema Uuid} {pick : SessionRow Uuid → Bool}
    {f : SessionRow Uuid → Except StoreError (SessionRow Uuid)}
    {hkey : ∀ r r', f r = .ok r' → r'.session_id = r.session_id} {changed : List (SessionRow Uuid)}
    (h : schema.updateSessions pick f hkey = .ok (schema', changed)) :
    List.Forall₂ (Comes pick f) schema.translation_sessions.rows schema'.translation_sessions.rows ∧
      (∀ r', r' ∈ changed ↔ ∃ r ∈ schema.translation_sessions.rows, pick r = true ∧ f r = .ok r') ∧
      schema'.session_listeners = schema.session_listeners ∧
      schema'.session_transcripts = schema.session_transcripts := by
  unfold updateSessions at h
  split at h
  · cases h
  · rename_i sessions changed' hupdate
    cases h
    obtain ⟨hrows, hchanged⟩ := Table.update_eq_ok hupdate
    exact ⟨hrows, hchanged, rfl, rfl⟩

omit [DecidableEq Uuid] in
/-- The statement does what the update of its table does. -/
theorem updateSessions_of_ok {schema : Schema Uuid} {pick : SessionRow Uuid → Bool}
    {f : SessionRow Uuid → Except StoreError (SessionRow Uuid)}
    {hkey : ∀ r r', f r = .ok r' → r'.session_id = r.session_id}
    {sessions : Table (SessionRow Uuid) Uuid (·.session_id)} {changed : List (SessionRow Uuid)}
    (hok : schema.translation_sessions.update pick f hkey = .ok (sessions, changed)) :
    ∃ schema', schema.updateSessions pick f hkey = .ok (schema', changed) ∧
      schema'.translation_sessions = sessions := by
  unfold updateSessions
  split
  · rename_i e herror
    rw [hok] at herror
    cases herror
  · rename_i sessions' changed' hupdate
    rw [hok] at hupdate
    cases hupdate
    exact ⟨_, rfl, rfl⟩

omit [DecidableEq Uuid] in
/-- When no change of a picked row fails, the statement goes through. -/
theorem updateSessions_ok (schema : Schema Uuid) (pick : SessionRow Uuid → Bool)
    {f : SessionRow Uuid → Except StoreError (SessionRow Uuid)}
    (hkey : ∀ r r', f r = .ok r' → r'.session_id = r.session_id)
    (hf : ∀ r ∈ schema.translation_sessions.rows, pick r = true → ∃ r', f r = .ok r') :
    ∃ schema' changed, schema.updateSessions pick f hkey = .ok (schema', changed) := by
  obtain ⟨t', changed, hok⟩ := Table.update_ok schema.translation_sessions pick hkey hf
  obtain ⟨schema', hschema, -⟩ := updateSessions_of_ok hok
  exact ⟨schema', changed, hschema⟩

omit [DecidableEq Uuid] in
/-- A statement that picks one row returns that row as it comes out. -/
theorem updateSessions_one {schema : Schema Uuid} (pick : SessionRow Uuid → Bool)
    {f : SessionRow Uuid → Except StoreError (SessionRow Uuid)}
    (hkey : ∀ r r', f r = .ok r' → r'.session_id = r.session_id) {r r' : SessionRow Uuid}
    (hr : r ∈ schema.translation_sessions.rows)
    (hpick : ∀ x ∈ schema.translation_sessions.rows, pick x = true ↔ x = r) (hf : f r = .ok r') :
    ∃ schema' more, schema.updateSessions pick f hkey = .ok (schema', r' :: more) ∧
      r' ∈ schema'.translation_sessions.rows := by
  obtain ⟨t', more, hok, hmem⟩ := Table.update_one hkey hr hpick hf
  obtain ⟨schema', hschema, rfl⟩ := updateSessions_of_ok hok
  exact ⟨schema', more, hschema, hmem⟩

omit [DecidableEq Uuid] in
/-- A statement that picks no row returns none. -/
theorem updateSessions_none {schema : Schema Uuid} (pick : SessionRow Uuid → Bool)
    {f : SessionRow Uuid → Except StoreError (SessionRow Uuid)}
    (hkey : ∀ r r', f r = .ok r' → r'.session_id = r.session_id)
    (hpick : ∀ x ∈ schema.translation_sessions.rows, pick x = false) :
    ∃ schema', schema.updateSessions pick f hkey = .ok (schema', []) := by
  obtain ⟨t', hok⟩ := Table.update_none hkey hpick
  obtain ⟨schema', hschema, -⟩ := updateSessions_of_ok hok
  exact ⟨schema', hschema⟩

theorem insertListener_eq_ok {schema schema' : Schema Uuid} {row : ListenerRow Uuid}
    (h : schema.insertListener row = .ok schema') :
    schema'.session_listeners.rows = schema.session_listeners.rows ++ [row] ∧
      schema'.translation_sessions = schema.translation_sessions ∧
      schema'.session_transcripts = schema.session_transcripts := by
  unfold insertListener at h
  split at h
  · split at h
    · cases h
    · rename_i listeners hinsert
      cases h
      exact ⟨(Table.insert_eq_some hinsert).1, rfl, rfl⟩
  · cases h

/-- A new row for a session that is there goes in. -/
theorem insertListener_ok {schema : Schema Uuid} (row : ListenerRow Uuid)
    (hmem : row.session_id ∈ schema.translation_sessions.rows.map (·.session_id))
    (hfresh : row.listener_id ∉ schema.session_listeners.rows.map (·.listener_id)) :
    ∃ schema', schema.insertListener row = .ok schema' := by
  unfold insertListener
  rw [dif_pos hmem]
  split
  · rename_i hnone
    exact absurd (Table.insert_eq_none.mp hnone) hfresh
  · exact ⟨_, rfl⟩

omit [DecidableEq Uuid] in
theorem updateListeners_eq_ok {schema schema' : Schema Uuid} {pick : ListenerRow Uuid → Bool}
    {f : ListenerRow Uuid → Except StoreError (ListenerRow Uuid)}
    {hkey : ∀ r r', f r = .ok r' → r'.listener_id = r.listener_id ∧ r'.session_id = r.session_id}
    (h : schema.updateListeners pick f hkey = .ok schema') :
    List.Forall₂ (Comes pick f) schema.session_listeners.rows schema'.session_listeners.rows ∧
      schema'.translation_sessions = schema.translation_sessions ∧
      schema'.session_transcripts = schema.session_transcripts := by
  unfold updateListeners at h
  split at h
  · cases h
  · rename_i listeners changed hupdate
    cases h
    exact ⟨(Table.update_eq_ok hupdate).1, rfl, rfl⟩

/-- An upsert changes the row that has the key, or appends its row. -/
theorem upsertTranscript_eq_ok {schema schema' : Schema Uuid} {row : StoredTranscript Uuid}
    {f : StoredTranscript Uuid → StoredTranscript Uuid} {hkey : ∀ r, (f r).key = r.key}
    (h : schema.upsertTranscript row f hkey = .ok schema') :
    ((row.key ∈ schema.session_transcripts.rows.map StoredTranscript.key ∧
        List.Forall₂ (Comes (fun r => r.key = row.key) fun r => (.ok (f r) : Except StoreError _))
          schema.session_transcripts.rows schema'.session_transcripts.rows) ∨
      (row.key ∉ schema.session_transcripts.rows.map StoredTranscript.key ∧
        schema'.session_transcripts.rows = schema.session_transcripts.rows ++ [row])) ∧
      schema'.translation_sessions = schema.translation_sessions ∧
      schema'.session_listeners = schema.session_listeners := by
  unfold upsertTranscript at h
  split at h
  · rename_i hmem
    split at h
    · cases h
    · rename_i transcripts changed hupdate
      cases h
      exact ⟨.inl ⟨hmem, (Table.update_eq_ok hupdate).1⟩, rfl, rfl⟩
  · split at h
    · split at h
      · cases h
      · rename_i transcripts hinsert
        cases h
        obtain ⟨hrows, hnew⟩ := Table.insert_eq_some hinsert
        exact ⟨.inr ⟨hnew, hrows⟩, rfl, rfl⟩
    · cases h

/-- A key that is there makes the upsert a change, and it goes through. -/
theorem upsertTranscript_ok {schema : Schema Uuid} (row : StoredTranscript Uuid)
    (f : StoredTranscript Uuid → StoredTranscript Uuid) (hkey : ∀ r, (f r).key = r.key)
    (hmem : row.key ∈ schema.session_transcripts.rows.map StoredTranscript.key) :
    ∃ schema', schema.upsertTranscript row f hkey = .ok schema' ∧
      List.Forall₂ (Comes (fun r => r.key = row.key) fun r => (.ok (f r) : Except StoreError _))
        schema.session_transcripts.rows schema'.session_transcripts.rows := by
  unfold upsertTranscript
  rw [if_pos hmem]
  split
  · rename_i e herror
    obtain ⟨t', changed, hok⟩ := Table.update_ok schema.session_transcripts _ _ fun r _ _ => ⟨f r, rfl⟩
    rw [hok] at herror
    cases herror
  · rename_i transcripts changed hupdate
    exact ⟨_, rfl, (Table.update_eq_ok hupdate).1⟩

end Schema

/-! ## The rows that the statements write -/

/-- The row of a new session. -/
def SessionRow.starting (config : SessionConfig) (session_id tenant_id : Uuid)
    (latency_credible : Bool) (now : ℚ) : SessionRow Uuid where
  session_id := session_id
  tenant_id := tenant_id
  event_name := config.event_name
  room_name := config.room_name
  source_language := config.source_language
  target_languages := config.targetCodes
  status := .starting
  started_at := now
  ended_at := none
  failure_reason := none
  billed_seconds := none
  billed_language_count := none
  latency_credible := latency_credible
  backend_stt := some config.backends.stt
  backend_mt := some config.backends.mt
  backend_tts := some config.backends.tts
  targets_not_empty := by simpa [SessionConfig.targetCodes] using config.targets_ne
  ended_after_started := by simp
  failure_has_reason := by simp

/-- `SET status = $3`. -/
def SessionRow.setStatus (status : Status) (r : SessionRow Uuid) :
    Except StoreError (SessionRow Uuid) :=
  if h : status = .failed → r.failure_reason.isSome then
    .ok { r with status, failure_has_reason := h }
  else .error (.databaseError "CheckViolationError: translation_sessions_failure_has_reason")

omit [DecidableEq Uuid] in
theorem SessionRow.setStatus_eq_ok {status : Status} {r r' : SessionRow Uuid}
    (h : r.setStatus status = .ok r') : r'.session_id = r.session_id ∧ r'.tenant_id = r.tenant_id ∧
      r'.status = status ∧ r'.ended_at = r.ended_at := by
  unfold setStatus at h
  split at h <;> cases h
  exact ⟨rfl, rfl, rfl, rfl⟩

/-- The `SET` of `end_session`, at the time `now()`. -/
def SessionRow.close (status : Status) (failure_reason : Option String) (now : ℚ)
    (r : SessionRow Uuid) : Except StoreError (SessionRow Uuid) :=
  if hended : r.started_at ≤ now then
    if hreason : status = .failed → failure_reason.isSome then
      .ok { r with
        status
        ended_at := some now
        failure_reason
        billed_seconds := some ⌈now - r.started_at⌉.toNat
        billed_language_count := some r.target_languages.length
        ended_after_started := by simpa using hended
        failure_has_reason := hreason }
    else .error (.databaseError "CheckViolationError: translation_sessions_failure_has_reason")
  else .error (.databaseError "CheckViolationError: translation_sessions_ended_after_started")

omit [DecidableEq Uuid] in
theorem SessionRow.close_eq_ok {status : Status} {failure_reason : Option String} {now : ℚ}
    {r r' : SessionRow Uuid} (h : r.close status failure_reason now = .ok r') :
    r'.session_id = r.session_id ∧ r'.tenant_id = r.tenant_id ∧ r'.status = status ∧
      r'.ended_at = some now ∧ r'.billed_seconds = some ⌈now - r.started_at⌉.toNat ∧
      r'.billed_language_count = some r.target_languages.length := by
  unfold close at h
  split at h
  · split at h <;> cases h
    exact ⟨rfl, rfl, rfl, rfl, rfl, rfl⟩
  · cases h

/-- `SET left_at = now()`. -/
def ListenerRow.leave (now : ℚ) (r : ListenerRow Uuid) : Except StoreError (ListenerRow Uuid) :=
  if h : r.joined_at ≤ now then
    .ok { r with left_at := some now, left_after_joined := by simpa using h }
  else .error (.databaseError "CheckViolationError: session_listeners_left_after_joined")

omit [DecidableEq Uuid] in
theorem ListenerRow.leave_eq_ok {now : ℚ} {r r' : ListenerRow Uuid} (h : r.leave now = .ok r') :
    r'.listener_id = r.listener_id ∧ r'.session_id = r.session_id ∧ r'.tenant_id = r.tenant_id := by
  unfold leave at h
  split at h <;> cases h
  exact ⟨rfl, rfl, rfl⟩

/-- `DO UPDATE SET`: the three columns that a repeated write carries. -/
def StoredTranscript.rewrite (row r : StoredTranscript Uuid) : StoredTranscript Uuid :=
  { r with
    translated_text := row.translated_text
    latency_s := row.latency_s
    revised := row.revised }

end

/-! ## The store -/

/-- Reads and writes session data of one tenant, in one schema. -/
structure SessionStore where
  tenant : TenantContext

namespace SessionStore

variable {Uuid : Type} [DecidableEq Uuid] [UuidText Uuid]

/-- `$1::uuid`. -/
def uuid (text : String) : Except StoreError Uuid :=
  match UuidText.cast text with
  | some id => .ok id
  | none => .error (.databaseError ("DataError: invalid UUID " ++ text))

omit [DecidableEq Uuid] in
theorem uuid_eq_ok {text : String} {id : Uuid} : uuid text = .ok id ↔ UuidText.cast text = some id := by
  unfold uuid
  cases (UuidText.cast text : Option Uuid) <;> simp

/-- The tenant's id, as the statements see it. -/
def tenantUuid (store : SessionStore) : Except StoreError Uuid := uuid store.tenant.tenant_id

def createSession (store : SessionStore) (now : ℚ) (schema : Schema Uuid) (config : SessionConfig)
    (latency_credible : Bool) : Except StoreError (Schema Uuid × String) := do
  if config.tenant.tenant_id ≠ store.tenant.tenant_id then
    throw (.valueError ("session tenant " ++ config.tenant.tenant_id ++
      " does not match store tenant " ++ store.tenant.tenant_id))
  let session_id ← uuid config.session_id
  let tenant_id ← store.tenantUuid
  let schema ← schema.insertSession (.starting config session_id tenant_id latency_credible now)
  return (schema, config.session_id)

/-- `_update_status`. -/
def updateStatus (store : SessionStore) (schema : Schema Uuid) (session_id : String)
    (status : Status) : Except StoreError (Schema Uuid) := do
  let id ← uuid session_id
  let tenant_id ← store.tenantUuid
  let (schema, changed) ← schema.updateSessions
    (fun r => r.session_id = id ∧ r.tenant_id = tenant_id) (SessionRow.setStatus status)
    fun _ _ hf => (SessionRow.setStatus_eq_ok hf).1
  if changed = [] then
    throw (.lookupError ("session " ++ session_id ++ " not found for tenant " ++
      store.tenant.tenant_id))
  return schema

def markLive (store : SessionStore) (schema : Schema Uuid) (session_id : String) :
    Except StoreError (Schema Uuid) :=
  store.updateStatus schema session_id .live

/-- Close the session and settle billing. -/
def endSession (store : SessionStore) (now : ℚ) (schema : Schema Uuid) (session_id : String)
    (failure_reason : Option String) : Except StoreError (Schema Uuid × SessionBilling) := do
  let status : Status := if failure_reason.getD "" = "" then .ended else .failed
  let id ← uuid session_id
  let tenant_id ← store.tenantUuid
  let (schema, changed) ← schema.updateSessions
    (fun r => r.session_id = id ∧ r.tenant_id = tenant_id ∧ r.ended_at = none)
    (SessionRow.close status failure_reason now)
    fun _ _ hf => (SessionRow.close_eq_ok hf).1
  match changed with
  | [] => throw (.lookupError ("session " ++ session_id ++ " not found for tenant " ++
      store.tenant.tenant_id ++ ", or already ended"))
  | row :: _ => return (schema, {
      session_id
      tenant_id := store.tenant.tenant_id
      seconds := row.billed_seconds.getD 0
      language_count := row.billed_language_count.getD 0 })

def getSession (store : SessionStore) (schema : Schema Uuid) (session_id : String) :
    Except StoreError (Option (SessionRow Uuid)) := do
  let id ← uuid session_id
  let tenant_id ← store.tenantUuid
  return schema.translation_sessions.rows.find? fun r => r.session_id = id ∧ r.tenant_id = tenant_id

/-- The newest session first. -/
def liveSessions (store : SessionStore) (schema : Schema Uuid) :
    Except StoreError (List (SessionRow Uuid)) := do
  let tenant_id ← store.tenantUuid
  let rows := schema.translation_sessions.rows.filter fun r =>
    r.tenant_id = tenant_id ∧ (r.status = .starting ∨ r.status = .live)
  return rows.mergeSort fun a b => decide (b.started_at ≤ a.started_at)

/-- The new listener's id comes from `uuid.uuid4()`. -/
def listenerJoined (store : SessionStore) (now : ℚ) (schema : Schema Uuid) (listener_id : String)
    (session_id language : String) : Except StoreError (Schema Uuid × String) := do
  let listener ← uuid listener_id
  let id ← uuid session_id
  let tenant_id ← store.tenantUuid
  let schema ← schema.insertListener {
    listener_id := listener
    session_id := id
    tenant_id
    language
    joined_at := now
    left_at := none
    left_after_joined := by simp }
  return (schema, listener_id)

def listenerLeft (store : SessionStore) (now : ℚ) (schema : Schema Uuid) (listener_id : String) :
    Except StoreError (Schema Uuid) := do
  let id ← uuid listener_id
  let tenant_id ← store.tenantUuid
  schema.updateListeners
    (fun r => r.listener_id = id ∧ r.tenant_id = tenant_id ∧ r.left_at = none)
    (ListenerRow.leave now)
    fun _ _ hf => ⟨(ListenerRow.leave_eq_ok hf).1, (ListenerRow.leave_eq_ok hf).2.1⟩

/-- `SELECT language, count(*) ... GROUP BY language`. -/
def countByLanguage (rows : List (ListenerRow Uuid)) : List (String × Nat) :=
  (rows.map (·.language)).dedup.map fun language =>
    (language, (rows.filter (·.language = language)).length)

/-- Live listener count per language. -/
def activeListeners (store : SessionStore) (schema : Schema Uuid) (session_id : String) :
    Except StoreError (List (String × Nat)) := do
  let tenant_id ← store.tenantUuid
  let id ← uuid session_id
  return countByLanguage <| schema.session_listeners.rows.filter fun r =>
    r.tenant_id = tenant_id ∧ r.session_id = id ∧ r.left_at = none

/-- Store one chunk in one language. -/
def recordTranscript (store : SessionStore) (schema : Schema Uuid) (session_id : String)
    (row : TranscriptRow) : Except StoreError (Schema Uuid) := do
  let id ← uuid session_id
  let tenant_id ← store.tenantUuid
  if h : row.t_audio_start ≤ row.t_audio_end then
    let stored : StoredTranscript Uuid := { row with session_id := id, tenant_id, audio_span := h }
    schema.upsertTranscript stored stored.rewrite fun _ => rfl
  else throw (.databaseError "CheckViolationError: session_transcripts_audio_span")

def transcript (store : SessionStore) (schema : Schema Uuid) (session_id language : String) :
    Except StoreError (List (StoredTranscript Uuid)) := do
  let tenant_id ← store.tenantUuid
  let id ← uuid session_id
  let rows := schema.session_transcripts.rows.filter fun r =>
    r.tenant_id = tenant_id ∧ r.session_id = id ∧ r.language = language
  return rows.mergeSort fun a b => decide (a.chunk_id ≤ b.chunk_id)

/-! ## What the calls do -/

section

variable {store : SessionStore} {now : ℚ} {schema schema' : Schema Uuid}

theorem createSession_spec {config : SessionConfig} {latency_credible : Bool} {text : String}
    (h : store.createSession now schema config latency_credible = .ok (schema', text)) :
    ∃ id T, uuid config.session_id = .ok id ∧ store.tenantUuid = .ok T ∧
      schema'.translation_sessions.rows = schema.translation_sessions.rows ++
        [.starting config id T latency_credible now] ∧
      schema'.session_listeners = schema.session_listeners ∧
      schema'.session_transcripts = schema.session_transcripts := by
  unfold createSession at h
  split at h
  · cases h
  · obtain ⟨id, hid, h⟩ := bind_eq_ok.mp h
    obtain ⟨T, hT, h⟩ := bind_eq_ok.mp h
    obtain ⟨_, hinsert, h⟩ := bind_eq_ok.mp h
    cases h
    obtain ⟨hrows, -, hothers⟩ := Schema.insertSession_eq_ok hinsert
    exact ⟨id, T, hid, hT, hrows, hothers⟩

theorem updateStatus_spec {session_id : String} {status : Status}
    (h : store.updateStatus schema session_id status = .ok schema') :
    ∃ id T, uuid session_id = .ok id ∧ store.tenantUuid = .ok T ∧
      List.Forall₂ (Comes (fun r => r.session_id = id ∧ r.tenant_id = T) (SessionRow.setStatus status))
        schema.translation_sessions.rows schema'.translation_sessions.rows ∧
      schema'.session_listeners = schema.session_listeners ∧
      schema'.session_transcripts = schema.session_transcripts := by
  unfold updateStatus at h
  obtain ⟨id, hid, h⟩ := bind_eq_ok.mp h
  obtain ⟨T, hT, h⟩ := bind_eq_ok.mp h
  obtain ⟨⟨_, changed⟩, hupdate, h⟩ := bind_eq_ok.mp h
  obtain ⟨hrows, -, hothers⟩ := Schema.updateSessions_eq_ok hupdate
  simp only at h
  split at h
  · cases h
  · cases h
    exact ⟨id, T, hid, hT, hrows, hothers⟩

theorem endSession_spec {session_id : String} {failure_reason : Option String}
    {billing : SessionBilling}
    (h : store.endSession now schema session_id failure_reason = .ok (schema', billing)) :
    ∃ id T status, store.tenantUuid = .ok T ∧ (status = .ended ∨ status = .failed) ∧
      List.Forall₂ (Comes (fun r => r.session_id = id ∧ r.tenant_id = T ∧ r.ended_at = none)
        (SessionRow.close status failure_reason now))
        schema.translation_sessions.rows schema'.translation_sessions.rows ∧
      (∃ r ∈ schema'.translation_sessions.rows, r.tenant_id = T ∧
        r.billed_seconds = some billing.seconds ∧
        r.billed_language_count = some billing.language_count) ∧
      schema'.session_listeners = schema.session_listeners ∧
      schema'.session_transcripts = schema.session_transcripts := by
  unfold endSession at h
  obtain ⟨id, -, h⟩ := bind_eq_ok.mp h
  obtain ⟨T, hT, h⟩ := bind_eq_ok.mp h
  obtain ⟨⟨_, changed⟩, hupdate, h⟩ := bind_eq_ok.mp h
  obtain ⟨hrows, hchanged, hothers⟩ := Schema.updateSessions_eq_ok hupdate
  simp only at h
  split at h
  · cases h
  · rename_i row more
    cases h
    refine ⟨id, T, _, hT, ?_, hrows, ?_, hothers⟩
    · split
      · exact .inl rfl
      · exact .inr rfl
    · obtain ⟨r, hr, hpick, hclose⟩ := (hchanged row).mp List.mem_cons_self
      simp only [decide_eq_true_eq] at hpick
      obtain ⟨r', hr', ⟨-, hsame⟩ | ⟨hnot, -⟩⟩ := change_mem hrows hr
      · rw [hclose] at hsame
        cases hsame
        obtain ⟨-, htenant, -, -, hseconds, hcount⟩ := SessionRow.close_eq_ok hclose
        exact ⟨row, hr', htenant.trans hpick.2.1, by rw [hseconds]; rfl, by rw [hcount]; rfl⟩
      · exact absurd hpick (by simpa using hnot)

theorem getSession_spec {session_id : String} {r : SessionRow Uuid}
    (h : store.getSession schema session_id = .ok (some r)) :
    r ∈ schema.translation_sessions.rows ∧ store.tenantUuid = .ok r.tenant_id := by
  unfold getSession at h
  obtain ⟨id, -, h⟩ := bind_eq_ok.mp h
  obtain ⟨T, hT, h⟩ := bind_eq_ok.mp h
  have hfound := Except.ok.inj h
  have hpick := List.find?_some hfound
  simp only [decide_eq_true_eq] at hpick
  exact ⟨List.mem_of_find?_eq_some hfound, hpick.2 ▸ hT⟩

theorem liveSessions_spec {rows : List (SessionRow Uuid)} {r : SessionRow Uuid}
    (h : store.liveSessions schema = .ok rows) (hr : r ∈ rows) :
    r ∈ schema.translation_sessions.rows ∧ store.tenantUuid = .ok r.tenant_id ∧
      (r.status = .starting ∨ r.status = .live) := by
  unfold liveSessions at h
  obtain ⟨T, hT, h⟩ := bind_eq_ok.mp h
  cases h
  rw [List.mem_mergeSort, List.mem_filter, decide_eq_true_eq] at hr
  exact ⟨hr.1, hr.2.1 ▸ hT, hr.2.2⟩

theorem listenerJoined_spec {listener_id session_id language text : String}
    (h : store.listenerJoined now schema listener_id session_id language = .ok (schema', text)) :
    ∃ row, store.tenantUuid = .ok row.tenant_id ∧
      schema'.session_listeners.rows = schema.session_listeners.rows ++ [row] ∧
      schema'.translation_sessions = schema.translation_sessions ∧
      schema'.session_transcripts = schema.session_transcripts := by
  unfold listenerJoined at h
  obtain ⟨listener, -, h⟩ := bind_eq_ok.mp h
  obtain ⟨id, -, h⟩ := bind_eq_ok.mp h
  obtain ⟨T, hT, h⟩ := bind_eq_ok.mp h
  obtain ⟨_, hinsert, h⟩ := bind_eq_ok.mp h
  cases h
  exact ⟨_, hT, Schema.insertListener_eq_ok hinsert⟩

/-- A listener joins a session of the table, under an id that is new. -/
theorem listenerJoined_ok {listener_id session_id : String} {listener id T : Uuid}
    (hlistener : UuidText.cast listener_id = some listener)
    (hfresh : listener ∉ schema.session_listeners.rows.map (·.listener_id))
    (hid : UuidText.cast session_id = some id)
    (hmem : id ∈ schema.translation_sessions.rows.map (·.session_id))
    (hT : store.tenantUuid = .ok T) (now : ℚ) (language : String) :
    ∃ schema', store.listenerJoined now schema listener_id session_id language =
      .ok (schema', listener_id) := by
  unfold listenerJoined
  rw [uuid_eq_ok.mpr hlistener, uuid_eq_ok.mpr hid, hT]
  obtain ⟨schema', hinsert⟩ := Schema.insertListener_ok
    { listener_id := listener, session_id := id, tenant_id := T, language, joined_at := now,
      left_at := none, left_after_joined := by simp } hmem hfresh
  refine ⟨schema', ?_⟩
  simp only [bind, Except.bind]
  rw [hinsert]
  rfl

theorem listenerLeft_spec {listener_id : String}
    (h : store.listenerLeft now schema listener_id = .ok schema') :
    ∃ id T, store.tenantUuid = .ok T ∧
      List.Forall₂ (Comes (fun r => r.listener_id = id ∧ r.tenant_id = T ∧ r.left_at = none)
        (ListenerRow.leave now)) schema.session_listeners.rows schema'.session_listeners.rows ∧
      schema'.translation_sessions = schema.translation_sessions ∧
      schema'.session_transcripts = schema.session_transcripts := by
  unfold listenerLeft at h
  obtain ⟨id, -, h⟩ := bind_eq_ok.mp h
  obtain ⟨T, hT, h⟩ := bind_eq_ok.mp h
  exact ⟨id, T, hT, Schema.updateListeners_eq_ok h⟩

/-- The counts are those of some rows of the tenant. -/
theorem activeListeners_spec {session_id : String} {counts : List (String × Nat)}
    (h : store.activeListeners schema session_id = .ok counts) :
    ∃ rows : List (ListenerRow Uuid), rows.Sublist schema.session_listeners.rows ∧
      (∀ r ∈ rows, store.tenantUuid = .ok r.tenant_id) ∧ counts = countByLanguage rows := by
  unfold activeListeners at h
  obtain ⟨T, hT, h⟩ := bind_eq_ok.mp h
  obtain ⟨id, -, h⟩ := bind_eq_ok.mp h
  cases h
  refine ⟨_, List.filter_sublist, ?_, rfl⟩
  intro r hr
  rw [List.mem_filter, decide_eq_true_eq] at hr
  exact hr.2.1 ▸ hT

/-- A recorded row goes to the table by an upsert, under the store's tenant. -/
theorem recordTranscript_spec {session_id : String} {row : TranscriptRow} :
    store.recordTranscript schema session_id row = .ok schema' ↔
      ∃ (id T : Uuid) (hspan : row.t_audio_start ≤ row.t_audio_end), uuid session_id = .ok id ∧
        store.tenantUuid = .ok T ∧
        schema.upsertTranscript { row with session_id := id, tenant_id := T, audio_span := hspan }
          (StoredTranscript.rewrite
            { row with session_id := id, tenant_id := T, audio_span := hspan }) (fun _ => rfl) =
          .ok schema' := by
  unfold recordTranscript
  constructor
  · intro h
    obtain ⟨id, hid, h⟩ := bind_eq_ok.mp h
    obtain ⟨T, hT, h⟩ := bind_eq_ok.mp h
    split at h
    · rename_i hspan
      exact ⟨id, T, hspan, hid, hT, h⟩
    · cases h
  · rintro ⟨id, T, hspan, hid, hT, h⟩
    refine bind_eq_ok.mpr ⟨id, hid, bind_eq_ok.mpr ⟨T, hT, ?_⟩⟩
    rw [dif_pos hspan]
    exact h

theorem transcript_spec {session_id language : String} {rows : List (StoredTranscript Uuid)}
    {r : StoredTranscript Uuid} (h : store.transcript schema session_id language = .ok rows)
    (hr : r ∈ rows) : r ∈ schema.session_transcripts.rows ∧ store.tenantUuid = .ok r.tenant_id ∧
      r.language = language := by
  unfold transcript at h
  obtain ⟨T, hT, h⟩ := bind_eq_ok.mp h
  obtain ⟨id, -, h⟩ := bind_eq_ok.mp h
  cases h
  rw [List.mem_mergeSort, List.mem_filter, decide_eq_true_eq] at hr
  exact ⟨hr.1, hr.2.1 ▸ hT, hr.2.2.2⟩

end

end SessionStore

/-! ## The calls -/

/-- A call of a store, with what it takes from outside. -/
inductive StoreCall
  | createSession (config : SessionConfig) (latency_credible : Bool)
  | markLive (session_id : String)
  | endSession (session_id : String) (failure_reason : Option String)
  | getSession (session_id : String)
  | liveSessions
  | listenerJoined (listener_id session_id language : String)
  | listenerLeft (listener_id : String)
  | activeListeners (session_id : String)
  | recordTranscript (session_id : String) (row : TranscriptRow)
  | transcript (session_id language : String)

/-- What a call returns. -/
inductive Answer (Uuid : Type)
  | none
  | id (text : String)
  | billing (billing : SessionBilling)
  | session (row : Option (SessionRow Uuid))
  | listed (rows : List (SessionRow Uuid))
  | counts (counts : List (String × Nat))
  | transcript (rows : List (StoredTranscript Uuid))

/-- A call of a store on a schema, at a time. -/
def SessionStore.call {Uuid : Type} [DecidableEq Uuid] [UuidText Uuid] (store : SessionStore)
    (now : ℚ) (schema : Schema Uuid) : StoreCall → Except StoreError (Schema Uuid × Answer Uuid)
  | .createSession config latency_credible =>
    (store.createSession now schema config latency_credible).map fun (schema, id) => (schema, .id id)
  | .markLive session_id => (store.markLive schema session_id).map (·, .none)
  | .endSession session_id failure_reason =>
    (store.endSession now schema session_id failure_reason).map fun (schema, b) => (schema, .billing b)
  | .getSession session_id => (store.getSession schema session_id).map fun row => (schema, .session row)
  | .liveSessions => (store.liveSessions schema).map fun rows => (schema, .listed rows)
  | .listenerJoined listener_id session_id language =>
    (store.listenerJoined now schema listener_id session_id language).map fun (schema, id) =>
      (schema, .id id)
  | .listenerLeft listener_id => (store.listenerLeft now schema listener_id).map (·, .none)
  | .activeListeners session_id =>
    (store.activeListeners schema session_id).map fun counts => (schema, .counts counts)
  | .recordTranscript session_id row => (store.recordTranscript schema session_id row).map (·, .none)
  | .transcript session_id language =>
    (store.transcript schema session_id language).map fun rows => (schema, .transcript rows)

/-- The calls that only read. -/
def StoreCall.Reads : StoreCall → Prop
  | .getSession _ | .liveSessions | .activeListeners _ | .transcript _ _ => True
  | _ => False

/-- What a call that is answered has done to the schema. -/
inductive Called {Uuid : Type} [DecidableEq Uuid] [UuidText Uuid] (store : SessionStore) (now : ℚ)
    (schema schema' : Schema Uuid) (call : StoreCall) : Prop
  | createSession (config : SessionConfig) (latency_credible : Bool) (text : String)
      (hcall : call = .createSession config latency_credible)
      (hok : store.createSession now schema config latency_credible = .ok (schema', text))
  | markLive (session_id : String) (hcall : call = .markLive session_id)
      (hok : store.markLive schema session_id = .ok schema')
  | endSession (session_id : String) (failure_reason : Option String) (billing : SessionBilling)
      (hcall : call = .endSession session_id failure_reason)
      (hok : store.endSession now schema session_id failure_reason = .ok (schema', billing))
  | listenerJoined (listener_id session_id language text : String)
      (hcall : call = .listenerJoined listener_id session_id language)
      (hok : store.listenerJoined now schema listener_id session_id language = .ok (schema', text))
  | listenerLeft (listener_id : String) (hcall : call = .listenerLeft listener_id)
      (hok : store.listenerLeft now schema listener_id = .ok schema')
  | recordTranscript (session_id : String) (row : TranscriptRow)
      (hcall : call = .recordTranscript session_id row)
      (hok : store.recordTranscript schema session_id row = .ok schema')
  | reads (hcall : call.Reads) (hsame : schema' = schema)

theorem called_of_ok {Uuid : Type} [DecidableEq Uuid] [UuidText Uuid] {store : SessionStore}
    {now : ℚ} {schema schema' : Schema Uuid} {call : StoreCall} {answer : Answer Uuid}
    (h : store.call now schema call = .ok (schema', answer)) :
    Called store now schema schema' call := by
  cases call with
  | createSession config latency_credible =>
    obtain ⟨⟨_, text⟩, hok, heq⟩ := map_eq_ok.mp h
    cases heq
    exact .createSession config latency_credible text rfl hok
  | markLive session_id =>
    obtain ⟨_, hok, heq⟩ := map_eq_ok.mp h
    cases heq
    exact .markLive session_id rfl hok
  | endSession session_id failure_reason =>
    obtain ⟨⟨_, billing⟩, hok, heq⟩ := map_eq_ok.mp h
    cases heq
    exact .endSession session_id failure_reason billing rfl hok
  | listenerJoined listener_id session_id language =>
    obtain ⟨⟨_, text⟩, hok, heq⟩ := map_eq_ok.mp h
    cases heq
    exact .listenerJoined listener_id session_id language text rfl hok
  | listenerLeft listener_id =>
    obtain ⟨_, hok, heq⟩ := map_eq_ok.mp h
    cases heq
    exact .listenerLeft listener_id rfl hok
  | recordTranscript session_id row =>
    obtain ⟨_, hok, heq⟩ := map_eq_ok.mp h
    cases heq
    exact .recordTranscript session_id row rfl hok
  | getSession | liveSessions | activeListeners | transcript =>
    obtain ⟨_, -, heq⟩ := map_eq_ok.mp h
    cases heq
    exact .reads trivial rfl

/-- The schema after a call. A call that raises leaves it as it was. -/
def SessionStore.after {Uuid : Type} [DecidableEq Uuid] [UuidText Uuid] (store : SessionStore)
    (now : ℚ) (schema : Schema Uuid) (call : StoreCall) : Schema Uuid :=
  match store.call now schema call with
  | .ok (schema', _) => schema'
  | .error _ => schema

end lad_translate.sessions
