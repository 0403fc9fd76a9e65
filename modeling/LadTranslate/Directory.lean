-- The tenant directory of the control plane (db/tenancy.py, db/migrate.py and
-- migrations/000_control_plane.sql), and the scan of it that finds a session
-- (api/join.py, `_load_session`).
import LadTranslate.Join

open fallible tables

namespace lad_translate.tenancy

open sessions

/-! ## Schema names -/

/-- What `validate_schema` raises, with the name that the text shows. -/
inductive SchemaError
  | empty
  | notSafe (name : String)
  | reserved (name : String)
deriving DecidableEq, Repr

/-- `[a-z][a-z0-9_]{0,62}`. -/
def safe : List Char → Bool
  | [] => false
  | c :: cs => c.isLower && decide (cs.length ≤ 62) &&
    cs.all fun c => c.isLower || c.isDigit || c == '_'

/-- `SCHEMA_PATTERN.match`. In Python, `$` also matches before a newline at the end. -/
def schemaPattern (name : String) : Bool :=
  safe name.toList || (name.toList.getLast? == some '\n' && safe name.toList.dropLast)

def reservedSchemas : List String := ["public", "information_schema", "pg_catalog", "pg_toast"]

/-- Check that a schema name is safe to interpolate, or raise. -/
def validateSchema (name : String) : Except SchemaError String :=
  if name = "" then .error .empty
  else if ¬ schemaPattern name then .error (.notSafe name)
  else if name ∈ reservedSchemas then .error (.reserved name)
  else .ok name

/-- The table's CHECK admits the reserved names, and they are all that it admits
and `validate_schema` does not. -/
theorem validateSchema_of_safe {name : String} (h : safe name.toList = true) :
    validateSchema name = if name ∈ reservedSchemas then .error (.reserved name) else .ok name := by
  have hne : name ≠ "" := by
    rintro rfl
    cases h
  unfold validateSchema
  rw [if_neg hne, if_neg (by simp [schemaPattern, h])]

theorem validateSchema_eq_ok {name name' : String} (h : validateSchema name = .ok name') :
    name' = name := by
  unfold validateSchema at h
  split at h
  · cases h
  · split at h
    · cases h
    · split at h <;> cases h
      rfl

/-! ## The directory -/

variable {Uuid : Type} [DecidableEq Uuid] [UuidText Uuid]

/-- A row of `tenants`. The id is the uuid that its text casts to. -/
structure TenantRow (Uuid : Type) [UuidText Uuid] where
  id : Uuid
  slug : String
  schema_name : String
  is_active : Bool
  id_text : UuidText.cast (UuidText.text id) = some id
  id_text_ne : UuidText.text id ≠ ""
  schema_name_shape : safe schema_name.toList = true

/-- The rows of `tenants`, in the order in which a scan gives them. -/
structure Directory (Uuid : Type) [UuidText Uuid] where
  rows : List (TenantRow Uuid)
  id_key : (rows.map (·.id)).Nodup
  slug_unique : (rows.map (·.slug)).Nodup
  schema_name_unique : (rows.map (·.schema_name)).Nodup

/-- `SELECT ... FROM tenants WHERE is_active`. -/
def Directory.active (directory : Directory Uuid) : List (TenantRow Uuid) :=
  directory.rows.filter (·.is_active)

/-- The schemas of the database that have the session tables. -/
abbrev Migrations (Uuid : Type) := String → Option (Schema Uuid)

/-- `apply_tenant`: the tables, where they are not there yet. -/
def applyTenant (db : Migrations Uuid) (schema : String) : Except SchemaError (Migrations Uuid) := do
  let schema ← validateSchema schema
  return Function.update db schema (some ((db schema).getD .empty))

/-- There is nothing left to apply to the schema. -/
def Migrated (db : Migrations Uuid) (schema : String) : Prop := applyTenant db schema = .ok db

omit [DecidableEq Uuid] [UuidText Uuid] in
theorem migrated_iff {db : Migrations Uuid} {schema : String} :
    Migrated db schema ↔ validateSchema schema = .ok schema ∧ ∃ tables, db schema = some tables := by
  unfold Migrated applyTenant
  constructor
  · intro h
    obtain ⟨name, hvalid, hdb⟩ := bind_eq_ok.mp h
    obtain rfl := validateSchema_eq_ok hvalid
    have hat := congrFun (Except.ok.inj hdb) name
    rw [Function.update_self] at hat
    exact ⟨hvalid, _, hat.symm⟩
  · rintro ⟨hvalid, tables, htables⟩
    refine bind_eq_ok.mpr ⟨schema, hvalid, ?_⟩
    rw [htables, Option.getD_some, ← htables, Function.update_eq_self]
    rfl

end lad_translate.tenancy

namespace lad_translate.api

open config sessions tenancy

/-! ## The scan -/

/-- What a request that looks for a session can raise. -/
inductive LoadError
  | http (e : HttpException)
  | schema (e : SchemaError)
  | store (e : StoreError)
deriving DecidableEq

/-- What becomes of an error: only an `HTTPException` has an answer of its own. -/
def LoadError.answer : LoadError → HttpException
  | .http e => e
  | .schema _ | .store _ => internalServerError

/-- `LAD_DATABASE_URL`, or its default. An empty one is left out: no context takes
it, so every load would raise. -/
abbrev DatabaseUrl := { url : String // url ≠ "" }

variable {Uuid : Type} [DecidableEq Uuid] [UuidText Uuid]

omit [DecidableEq Uuid] in
theorem schema_name_ne (row : TenantRow Uuid) : row.schema_name ≠ "" := by
  intro h
  have hshape := row.schema_name_shape
  rw [h] at hshape
  cases hshape

omit [DecidableEq Uuid] in
/-- The context that `_load_session` makes of a directory row. -/
def contextOf (database_url : DatabaseUrl) (row : TenantRow Uuid) : TenantContext where
  tenant_id := UuidText.text row.id
  database_url := database_url
  schema := row.schema_name
  tenant_id_ne := row.id_text_ne
  database_url_ne := database_url.2
  schema_ne := schema_name_ne row

/-- `SessionStore(pool, context)`. -/
def newStore (tenant : TenantContext) : Except SchemaError SessionStore := do
  let _ ← validateSchema tenant.schema
  return ⟨tenant⟩

/-- `get_session`, where the tables may be missing. -/
def askStore (db : Migrations Uuid) (store : SessionStore) (session_id : String) :
    Except StoreError (Option (SessionRow Uuid)) :=
  match db store.tenant.schema with
  | none => .error (.databaseError ("UndefinedTableError: relation " ++ store.tenant.schema ++
      ".translation_sessions does not exist"))
  | some schema => store.getSession schema session_id

/-- Ask the tenants of the directory for the session, in its order. -/
def scan (db : Migrations Uuid) (database_url : DatabaseUrl) (session_id : String) :
    List (TenantRow Uuid) → Except LoadError (SessionStore × SessionRow Uuid)
  | [] => .error (.http ⟨404, .text "session not found"⟩)
  | row :: rows => do
    let store ← (newStore (contextOf database_url row)).mapError .schema
    match ← (askStore db store session_id).mapError .store with
    | some session => return (store, session)
    | none => scan db database_url session_id rows

/-- `_load_session`, with the directory and the schemas that its queries see. -/
def loadSession (pool : Option (Directory Uuid × Migrations Uuid)) (database_url : DatabaseUrl)
    (session_id : String) : Except LoadError (SessionStore × SessionRow Uuid) :=
  match pool with
  | none => .error (.http ⟨503, .text "database not configured"⟩)
  | some (directory, db) => scan db database_url session_id directory.active

variable {db : Migrations Uuid} {database_url : DatabaseUrl} {session_id : String}
  {row : TenantRow Uuid} {rows : List (TenantRow Uuid)}

omit [DecidableEq Uuid] in
/-- The id of a directory row is the tenant of its store. -/
theorem tenantUuid_contextOf (row : TenantRow Uuid) :
    (SessionStore.tenantUuid ⟨contextOf database_url row⟩ : Except StoreError Uuid) = .ok row.id :=
  SessionStore.uuid_eq_ok.mpr row.id_text

/-- A tenant with a refused name, or without tables, ends the scan. -/
theorem scan_of_not_migrated (h : ¬ Migrated db row.schema_name) :
    ∃ e, scan db database_url session_id (row :: rows) = .error e := by
  unfold scan newStore
  rw [show (contextOf database_url row).schema = row.schema_name from rfl]
  cases hvalid : validateSchema row.schema_name with
  | error e => exact ⟨.schema e, rfl⟩
  | ok name =>
    obtain rfl := validateSchema_eq_ok hvalid
    have hnone : db row.schema_name = none := by
      rw [Option.eq_none_iff_forall_ne_some]
      intro tables htables
      exact h (migrated_iff.mpr ⟨hvalid, tables, htables⟩)
    refine ⟨.store (.databaseError ("UndefinedTableError: relation " ++ row.schema_name ++
      ".translation_sessions does not exist")), ?_⟩
    simp only [bind, Except.bind, pure, Except.pure, Except.mapError, askStore,
      show (contextOf database_url row).schema = row.schema_name from rfl, hnone]

/-- A tenant with its tables is asked, and the scan goes on when it has no such session. -/
theorem scan_of_migrated {schema : Schema Uuid} (h : Migrated db row.schema_name)
    (hschema : db row.schema_name = some schema) :
    scan db database_url session_id (row :: rows) =
      match SessionStore.getSession ⟨contextOf database_url row⟩ schema session_id with
      | .error e => .error (.store e)
      | .ok (some session) => .ok (⟨contextOf database_url row⟩, session)
      | .ok none => scan db database_url session_id rows := by
  obtain ⟨hvalid, -⟩ := migrated_iff.mp h
  rw [scan, newStore, show (contextOf database_url row).schema = row.schema_name from rfl, hvalid]
  simp only [bind, Except.bind, pure, Except.pure, Except.mapError, askStore,
    show (contextOf database_url row).schema = row.schema_name from rfl, hschema]
  cases SessionStore.getSession ⟨contextOf database_url row⟩ schema session_id with
  | error e => rfl
  | ok found => cases found <;> rfl

/-! ## The law of the scan -/

/-- The session is a row of the active tenant, whose schema is migrated, and no
other tenant has a session of that id. -/
structure SessionOf (directory : Directory Uuid) (db : Migrations Uuid) (tenant : TenantRow Uuid)
    (session : SessionRow Uuid) (session_id : String) : Prop where
  listed : tenant ∈ directory.rows
  active : tenant.is_active = true
  migrated : Migrated db tenant.schema_name
  stored : ∃ schema, db tenant.schema_name = some schema ∧
    session ∈ schema.translation_sessions.rows
  owned : session.tenant_id = tenant.id
  named : UuidText.cast session_id = some session.session_id
  unique : ∀ other ∈ directory.rows, ∀ schema, db other.schema_name = some schema →
    ∀ x ∈ schema.translation_sessions.rows, x.session_id = session.session_id → other.id = tenant.id

/-- The request finds the tenant's store and the session. -/
def Finds (directory : Directory Uuid) (db : Migrations Uuid) (tenant : TenantRow Uuid)
    (session : SessionRow Uuid) (session_id : String) : Prop :=
  ∀ database_url, loadSession (some (directory, db)) database_url session_id =
    .ok (⟨contextOf database_url tenant⟩, session)

/-- A store finds the row of its tenant by its id. -/
theorem getSession_of_mem {store : SessionStore} {schema : Schema Uuid} {session : SessionRow Uuid}
    (hT : store.tenantUuid = .ok session.tenant_id)
    (hid : UuidText.cast session_id = some session.session_id)
    (hmem : session ∈ schema.translation_sessions.rows) :
    store.getSession schema session_id = .ok (some session) := by
  unfold SessionStore.getSession
  rw [SessionStore.uuid_eq_ok.mpr hid, hT]
  simp only [bind, Except.bind, pure, Except.pure, Except.ok.injEq]
  obtain ⟨found, hfound⟩ := Option.isSome_iff_exists.mp (List.find?_isSome
    (p := fun r => decide (r.session_id = session.session_id ∧ r.tenant_id = session.tenant_id)).mpr
      ⟨session, hmem, by simp⟩)
  have hpick := List.find?_some hfound
  simp only [decide_eq_true_eq] at hpick
  rw [hfound, Table.eq_of_key_eq (List.mem_of_find?_eq_some hfound) hmem hpick.1]

/-- A store finds nothing under an id that no row has. -/
theorem getSession_of_not_mem {store : SessionStore} {schema : Schema Uuid} {T id : Uuid}
    (hT : store.tenantUuid = .ok T) (hid : UuidText.cast session_id = some id)
    (hnone : ∀ x ∈ schema.translation_sessions.rows, x.session_id ≠ id) :
    store.getSession schema session_id = .ok none := by
  unfold SessionStore.getSession
  rw [SessionStore.uuid_eq_ok.mpr hid, hT]
  simp only [bind, Except.bind, pure, Except.pure, Except.ok.injEq, List.find?_eq_none,
    decide_eq_true_eq, not_and]
  intro x hx hxid
  exact absurd hxid (hnone x hx)

/-- The scan of some rows of the directory, among them the tenant's. -/
theorem scan_iff {directory : Directory Uuid} {tenant : TenantRow Uuid} {session : SessionRow Uuid}
    (database_url : DatabaseUrl) (h : SessionOf directory db tenant session session_id)
    (hsub : ∀ row ∈ rows, row ∈ directory.rows) (hmem : tenant ∈ rows) :
    scan db database_url session_id rows = .ok (⟨contextOf database_url tenant⟩, session) ↔
      ∀ row ∈ rows.takeWhile (·.id ≠ tenant.id), Migrated db row.schema_name := by
  induction rows with
  | nil => cases hmem
  | cons row rows ih =>
    have hrow := hsub row List.mem_cons_self
    by_cases hid : row.id = tenant.id
    · obtain rfl : row = tenant :=
        List.inj_on_of_nodup_map directory.id_key hrow h.listed hid
      obtain ⟨schema, hschema, hstored⟩ := h.stored
      rw [scan_of_migrated h.migrated hschema, getSession_of_mem
        (by rw [h.owned]; exact tenantUuid_contextOf row) h.named hstored]
      simp
    · have hrest : tenant ∈ rows := by
        rcases List.mem_cons.mp hmem with rfl | hrest
        · exact absurd rfl hid
        · exact hrest
      rw [List.takeWhile_cons_of_pos (by simpa using hid), List.forall_mem_cons]
      by_cases hmigrated : Migrated db row.schema_name
      · obtain ⟨-, schema, hschema⟩ := migrated_iff.mp hmigrated
        rw [scan_of_migrated hmigrated hschema, getSession_of_not_mem (tenantUuid_contextOf row)
          h.named fun x hx hxid => hid (h.unique row hrow schema hschema x hx hxid)]
        simp only [hmigrated, true_and]
        exact ih (fun x hx => hsub x (List.mem_cons_of_mem _ hx)) hrest
      · obtain ⟨e, he⟩ : ∃ e, scan db database_url session_id (row :: rows) = .error e :=
          scan_of_not_migrated hmigrated
        rw [he]
        simp [hmigrated]

/-- A session is found exactly when every active tenant that the scan asks before
its own has a name that `validate_schema` accepts, and its tables. -/
theorem a_session_is_found_iff_the_tenants_before_are_migrated {directory : Directory Uuid}
    {tenant : TenantRow Uuid} {session : SessionRow Uuid}
    (h : SessionOf directory db tenant session session_id) :
    Finds directory db tenant session session_id ↔
      ∀ row ∈ directory.active.takeWhile (·.id ≠ tenant.id), Migrated db row.schema_name := by
  have hactive : tenant ∈ directory.active := List.mem_filter.mpr ⟨h.listed, h.active⟩
  have hscan := fun database_url => scan_iff database_url h
    (fun row hrow => List.mem_of_mem_filter hrow) hactive
  constructor
  · intro hfinds
    exact (hscan ⟨"unused", by simp⟩).mp (hfinds _)
  · intro hmigrated database_url
    exact (hscan database_url).mpr hmigrated

/-- Over a directory of migrated tenants, the scan is the one over their contexts. -/
theorem loadSession_of_migrated {directory : Directory Uuid} {app : App} (hpool : app.pool = true)
    (htenants : app.tenants = directory.active.map (contextOf database_url))
    (h : ∀ row ∈ directory.active, Migrated db row.schema_name) :
    (loadSession (some (directory, db)) database_url session_id).mapError LoadError.answer =
      app.loadSession (fun name => (db name).getD .empty) session_id := by
  unfold loadSession App.loadSession
  rw [if_pos hpool, htenants]
  simp only
  clear htenants
  generalize directory.active = rows at h
  induction rows with
  | nil => rfl
  | cons row rows ih =>
    obtain ⟨hmigrated, hrest⟩ := List.forall_mem_cons.mp h
    obtain ⟨-, schema, hschema⟩ := migrated_iff.mp hmigrated
    rw [scan_of_migrated hmigrated hschema, List.map_cons, App.askTenants]
    rw [show (db (contextOf database_url row).schema).getD .empty = schema by
      rw [show (contextOf database_url row).schema = row.schema_name from rfl, hschema]; rfl]
    cases SessionStore.getSession ⟨contextOf database_url row⟩ schema session_id with
    | error e => rfl
    | ok found =>
      cases found with
      | none => exact ih hrest
      | some session => rfl

open canonical

theorem keynoteTenant_text_ne : UuidText.text "0e984725-c51c-4bf4-9960-e1c80e27aba0" ≠ "" := by
  simp [UuidText.text]

/-- The keynote's tenant. -/
def keynoteTenant : TenantRow String where
  id := "0e984725-c51c-4bf4-9960-e1c80e27aba0"
  slug := "keynote"
  schema_name := "lad"
  is_active := true
  id_text := by decide +kernel
  id_text_ne := keynoteTenant_text_ne
  schema_name_shape := by decide +kernel

/-- Another tenant of the control plane, under some name. -/
def newTenant (schema_name : String) (hshape : safe schema_name.toList = true) :
    TenantRow String where
  id := "11111111-2222-3333-4444-555555555555"
  slug := "newcomer"
  schema_name := schema_name
  is_active := true
  id_text := by decide +kernel
  id_text_ne := by simp [UuidText.text]
  schema_name_shape := hshape

/-- The other tenant comes first in the scan. -/
def sharedDirectory (schema_name : String) (hshape : safe schema_name.toList = true)
    (hname : schema_name ≠ "lad") : Directory String where
  rows := [newTenant schema_name hshape, keynoteTenant]
  id_key := by simp [newTenant, keynoteTenant]
  slug_unique := by simp [newTenant, keynoteTenant]
  schema_name_unique := by simpa [newTenant, keynoteTenant] using hname

/-- The schemas of a database in which the keynote's session was created. -/
def sharedDatabase : Migrations String := fun name =>
  if name = "lad" then
    some (SessionStore.after ⟨SessionConfig.keynote.tenant⟩ 0 .empty (.createSession .keynote true))
  else if name = "acme" then some .empty
  else none

def keynoteSession : SessionRow String :=
  .starting .keynote SessionConfig.keynote.session_id keynoteTenant.id true 0

/-- The keynote's session is there to be found, whatever the other tenant is called. -/
theorem keynote_session_of (schema_name : String) (hshape : safe schema_name.toList = true)
    (hname : schema_name ≠ "lad") : SessionOf (sharedDirectory schema_name hshape hname)
      sharedDatabase keynoteTenant keynoteSession SessionConfig.keynote.session_id where
  listed := List.mem_cons_of_mem _ List.mem_cons_self
  active := rfl
  migrated := migrated_iff.mpr ⟨by decide +kernel, _, rfl⟩
  stored := ⟨_, rfl, by decide +kernel⟩
  owned := rfl
  named := by decide +kernel
  unique other hother schema hschema x hx _ := by
    rcases List.mem_cons.mp hother with rfl | hother
    · have htables : sharedDatabase schema_name = some schema := hschema
      rw [sharedDatabase, if_neg hname] at htables
      split at htables <;> cases htables
      cases hx
    · rw [List.mem_singleton.mp hother]

/-- Behind a migrated tenant, the keynote's session is found. -/
theorem the_keynote_is_found_behind_a_migrated_tenant :
    Finds (sharedDirectory "acme" (by decide +kernel) (by decide)) sharedDatabase keynoteTenant
      keynoteSession SessionConfig.keynote.session_id := by
  apply (a_session_is_found_iff_the_tenants_before_are_migrated (keynote_session_of _ _ _)).mpr
  intro row hrow
  obtain rfl : row = newTenant "acme" (by decide +kernel) := by
    simpa [sharedDirectory, Directory.active, newTenant, keynoteTenant] using hrow
  exact migrated_iff.mpr ⟨by decide +kernel, _, rfl⟩

/-- Behind a tenant whose name is reserved, or whose tables are still to come,
it is not, and the request is answered with an internal error. -/
theorem a_new_tenant_hides_the_keynote :
    (∃ hshape hname, SessionOf (sharedDirectory "public" hshape hname) sharedDatabase keynoteTenant
        keynoteSession SessionConfig.keynote.session_id ∧
      ¬ Finds (sharedDirectory "public" hshape hname) sharedDatabase keynoteTenant keynoteSession
        SessionConfig.keynote.session_id) ∧
    ∃ hshape hname, SessionOf (sharedDirectory "newcomer" hshape hname) sharedDatabase keynoteTenant
        keynoteSession SessionConfig.keynote.session_id ∧
      ¬ Finds (sharedDirectory "newcomer" hshape hname) sharedDatabase keynoteTenant keynoteSession
        SessionConfig.keynote.session_id := by
  have hidden : ∀ schema_name hshape hname, ¬ Migrated sharedDatabase schema_name →
      ¬ Finds (sharedDirectory schema_name hshape hname) sharedDatabase keynoteTenant keynoteSession
        SessionConfig.keynote.session_id := by
    intro schema_name hshape hname hnot hfinds
    obtain ⟨e, he⟩ : ∃ e, scan sharedDatabase ⟨"unused", by simp⟩ SessionConfig.keynote.session_id
        [newTenant schema_name hshape, keynoteTenant] = .error e := scan_of_not_migrated hnot
    have hfound := hfinds ⟨"unused", by simp⟩
    have hactive : (sharedDirectory schema_name hshape hname).active =
        [newTenant schema_name hshape, keynoteTenant] := rfl
    rw [loadSession, hactive, he] at hfound
    cases hfound
  refine ⟨⟨by decide +kernel, by decide, keynote_session_of _ _ _, hidden _ _ _ ?_⟩,
    ⟨by decide +kernel, by decide, keynote_session_of _ _ _, hidden _ _ _ ?_⟩⟩
  · intro hmigrated
    obtain ⟨hvalid, -⟩ := migrated_iff.mp hmigrated
    rw [validateSchema_of_safe (by decide +kernel), if_pos (by decide)] at hvalid
    cases hvalid
  · intro hmigrated
    obtain ⟨-, tables, htables⟩ := migrated_iff.mp hmigrated
    rw [sharedDatabase, if_neg (by decide), if_neg (by decide)] at htables
    cases htables

end lad_translate.api
