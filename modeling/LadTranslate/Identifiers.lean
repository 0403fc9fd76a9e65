-- What goes into SQL as the name of a schema: the names that `validate_schema`
-- accepts, and the statements of the resolver (db/tenancy.py), of a store
-- (db/sessions.py) and of the migrations (db/migrate.py). The database answers
-- them with anything.
import LadTranslate.Dicts
import LadTranslate.Directory

open dicts fallible

namespace lad_translate.tenancy

open config sessions

/-! ## The names -/

/-- From 1 to 63 characters, the first in a-z and the others in a-z, 0-9 or the
underscore, and not reserved. -/
structure SafeName (name : String) : Prop where
  length : 1 ≤ name.length ∧ name.length ≤ 63
  first : ∀ c, name.toList.head? = some c → 'a' ≤ c ∧ c ≤ 'z'
  rest : ∀ c ∈ name.toList.tail, ('a' ≤ c ∧ c ≤ 'z') ∨ ('0' ≤ c ∧ c ≤ '9') ∨ c = '_'
  unreserved : name ∉ reservedSchemas

/-- A safe identifier, and a newline after it. -/
def EndsInNewline (name : String) : Prop :=
  ∃ identifier : String, safe identifier.toList = true ∧ name = identifier ++ "\n"

theorem isLower_iff (c : Char) : c.isLower = true ↔ 'a' ≤ c ∧ c ≤ 'z' := by
  simp [Char.isLower, Char.le_def]

theorem isDigit_iff (c : Char) : c.isDigit = true ↔ '0' ≤ c ∧ c ≤ '9' := by
  simp [Char.isDigit, Char.le_def]

/-- The pattern, without the newline, and the four names. -/
theorem safeName_iff {name : String} :
    SafeName name ↔ safe name.toList = true ∧ name ∉ reservedSchemas := by
  have hlength : name.length = name.toList.length := String.length_toList.symm
  cases hname : name.toList with
  | nil =>
    rw [hname, List.length_nil] at hlength
    constructor
    · intro h
      have hpos := h.length.1
      omega
    · rintro ⟨hsafe, -⟩
      cases hsafe
  | cons c cs =>
    rw [hname, List.length_cons] at hlength
    simp only [safe, Bool.and_eq_true, decide_eq_true_eq, List.all_eq_true, Bool.or_eq_true,
      beq_iff_eq, isLower_iff, isDigit_iff, or_assoc]
    constructor
    · intro h
      have hrest := h.rest
      rw [hname] at hrest
      have hle := h.length.2
      exact ⟨⟨⟨h.first c (by rw [hname]; rfl), by omega⟩, hrest⟩, h.unreserved⟩
    · rintro ⟨⟨⟨hfirst, hle⟩, hrest⟩, hreserved⟩
      refine ⟨by omega, ?_, ?_, hreserved⟩
      · rw [hname]
        rintro d hd
        cases hd
        exact hfirst
      · rw [hname]
        exact hrest

theorem schemaPattern_iff {name : String} :
    schemaPattern name = true ↔ safe name.toList = true ∨ EndsInNewline name := by
  unfold schemaPattern EndsInNewline
  rw [Bool.or_eq_true, Bool.and_eq_true, beq_iff_eq]
  constructor
  · rintro (hsafe | ⟨hlast, hsafe⟩)
    · exact .inl hsafe
    · refine .inr ⟨String.ofList name.toList.dropLast, by rwa [String.toList_ofList], ?_⟩
      apply String.toList_injective
      rw [String.toList_append, String.toList_ofList]
      exact (List.dropLast_append_getLast? '\n' hlast).symm
  · rintro (hsafe | ⟨identifier, hsafe, rfl⟩)
    · exact .inl hsafe
    · refine .inr ⟨?_, ?_⟩
      · simp
      · simpa using hsafe

/-- No safe name, and no reserved one, ends in a newline. -/
theorem not_endsInNewline {name : String} (h : safe name.toList = true) : ¬ EndsInNewline name := by
  rintro ⟨identifier, -, rfl⟩
  rw [String.toList_append] at h
  cases hname : identifier.toList with
  | nil =>
    rw [hname] at h
    cases h
  | cons c cs =>
    rw [hname] at h
    simp [safe] at h

theorem reserved_safe {name : String} (h : name ∈ reservedSchemas) : safe name.toList = true := by
  revert name
  decide +kernel

/-- `validate_schema` accepts the safe names, and each safe identifier with a
newline after it, reserved or not. -/
theorem validateSchema_ok_iff {name : String} :
    validateSchema name = .ok name ↔ SafeName name ∨ EndsInNewline name := by
  rw [safeName_iff]
  unfold validateSchema
  by_cases hempty : name = ""
  · subst hempty
    rw [if_pos rfl]
    refine ⟨fun h => (by cases h), ?_⟩
    rintro (⟨hsafe, -⟩ | ⟨identifier, hsafe, hname⟩)
    · cases hsafe
    · simp at hname
  · rw [if_neg hempty]
    by_cases hpattern : schemaPattern name = true
    · rw [if_neg (not_not_intro hpattern)]
      by_cases hreserved : name ∈ reservedSchemas
      · rw [if_pos hreserved]
        refine ⟨fun h => (by cases h), ?_⟩
        rintro (⟨-, hnot⟩ | hnewline)
        · exact absurd hreserved hnot
        · exact absurd hnewline (not_endsInNewline (reserved_safe hreserved))
      · rw [if_neg hreserved]
        refine iff_of_true rfl ?_
        exact (schemaPattern_iff.mp hpattern).imp_left fun hsafe => ⟨hsafe, hreserved⟩
    · rw [if_pos hpattern]
      refine ⟨fun h => (by cases h), fun h => absurd ?_ hpattern⟩
      exact schemaPattern_iff.mpr (h.imp_left And.left)

/-! ## The statements -/

/-- A statement: its literal parts, with the name of the schema between them. -/
structure Sql where
  parts : List String
  schema : String
deriving DecidableEq

def Sql.text (sql : Sql) : String := sql.schema.intercalate sql.parts

/-- What `validate_schema` returned. -/
abbrev ValidSchema := { name : String // validateSchema name = .ok name }

def validated (name : String) : Except SchemaError ValidSchema :=
  match h : validateSchema name with
  | .error e => .error e
  | .ok name' => .ok ⟨name', by
      obtain rfl := validateSchema_eq_ok h
      exact h⟩

theorem validated_eq_ok {name : String} {schema : ValidSchema} :
    validated name = .ok schema ↔ schema.1 = name := by
  unfold validated
  split
  · rename_i e h
    refine ⟨fun h' => (by cases h'), ?_⟩
    rintro rfl
    rw [schema.2] at h
    cases h
  · rename_i name' h
    obtain rfl := validateSchema_eq_ok h
    constructor
    · intro h'
      cases h'
      rfl
    · rintro rfl
      rfl

theorem validated_error {name : String} {e : SchemaError} (h : validateSchema name = .error e) :
    validated name = .error e := by
  unfold validated
  split
  · rename_i e' h'
    rw [h] at h'
    cases h'
    rfl
  · rename_i name' h'
    rw [h] at h'
    cases h'

/-- A statement of a store, an f-string over `self._schema`. -/
def storeQuery (store : SessionStore) (parts : List String) : Sql := ⟨parts, store.tenant.schema⟩

/-! ## The resolver -/

structure TenantRecord where
  tenant_id : String
  slug : String
  schema : ValidSchema
  is_active : Bool

/-- `SELECT id::text, slug, schema_name, is_active`. -/
structure TenantColumns where
  id : String
  slug : String
  schema_name : String
  is_active : Bool

/-- What the resolver raises. The last two are a `SchemaError` with another text. -/
inductive ResolverError
  | schema (e : SchemaError)
  | database (text : String)
  | noTenant (tenant_id control_schema : String)
  | notActive (tenant_id : String)
deriving DecidableEq

/-- Maps a tenant's id to its schema, through the control plane. -/
structure TenantResolver where
  control_schema : ValidSchema
  ttl_s : ℚ
  cache : Dict String (ℚ × TenantRecord)

namespace TenantResolver

def new (control_schema : String) (ttl_s : ℚ) : Except SchemaError TenantResolver := do
  return ⟨← validated control_schema, ttl_s, ∅⟩

/-- The cached record of a tenant, as long as it is not stale. -/
def cached (r : TenantResolver) (now : ℚ) (tenant_id : String) : Option TenantRecord := do
  let (stored, record) ← r.cache.lookup tenant_id
  if now - stored < r.ttl_s then some record else none

def directoryQuery (r : TenantResolver) : Sql where
  parts := ["SELECT id::text, slug, schema_name, is_active FROM ", ".tenants WHERE id = $1::uuid"]
  schema := r.control_schema

/-- The statements that are sent, what is returned, and the resolver after it.
`answer` is what the database says, and `stored` the time when it has said it. -/
def lookup (r : TenantResolver) (now stored : ℚ) (tenant_id : String)
    (answer : Except String (Option TenantColumns)) :
    List Sql × Except ResolverError TenantRecord × TenantResolver :=
  match r.cached now tenant_id with
  | some record => ([], .ok record, r)
  | none =>
    let sent := [r.directoryQuery]
    match answer with
    | .error text => (sent, .error (.database text), r)
    | .ok none => (sent, .error (.noTenant tenant_id r.control_schema), r)
    | .ok (some row) =>
      match validated row.schema_name with
      | .error e => (sent, .error (.schema e), r)
      | .ok schema =>
        let record : TenantRecord := ⟨row.id, row.slug, schema, row.is_active⟩
        (sent, .ok record, { r with cache := r.cache.insert tenant_id (stored, record) })

theorem lookup_sent {r : TenantResolver} {now stored : ℚ} {tenant_id : String}
    {answer : Except String (Option TenantColumns)} {sql : Sql}
    (h : sql ∈ (r.lookup now stored tenant_id answer).1) : sql.schema = r.control_schema := by
  unfold lookup at h
  split at h
  · cases h
  · have hquery : sql ∈ [r.directoryQuery] := by
      split at h
      · exact h
      · exact h
      · split at h <;> exact h
    rw [List.mem_singleton.mp hquery]
    rfl

end TenantResolver

end lad_translate.tenancy

namespace lad_translate.migrate

open tenancy

/-! ## The migrations -/

/-- What ends a run of migrations early. -/
inductive ApplyError
  | schema (e : SchemaError)
  | fileNotFound (filename : String)
deriving DecidableEq

/-- The statements before a migration. -/
def opening (schema : ValidSchema) : List Sql :=
  [⟨["CREATE SCHEMA IF NOT EXISTS ", ""], schema⟩,
    ⟨["CREATE TABLE IF NOT EXISTS ", ".applied_migrations (\n" ++
      "    filename    text PRIMARY KEY,\n" ++
      "    applied_at  timestamptz NOT NULL DEFAULT now()\n)"], schema⟩,
    ⟨["SELECT 1 FROM ", ".applied_migrations WHERE filename = $1"], schema⟩]

/-- A migration, with the schema in the place of every placeholder, and its record. -/
def migration (schema : ValidSchema) (sql : String) : List Sql :=
  [⟨sql.splitOn "\x7bschema\x7d", schema⟩,
    ⟨["INSERT INTO ", ".applied_migrations (filename) VALUES ($1)"], schema⟩]

/-- The loop over the files: the statements it sends, and the files that it
applied. `ledger` holds the ones that are recorded, and `read` the texts of the
directory of migrations. -/
def applyFiles (read : String → Option String) (schema : ValidSchema) :
    List String → List String → List Sql × Except ApplyError (List String)
  | _, [] => ([], .ok [])
  | ledger, filename :: filenames =>
    match read filename with
    | none => ([], .error (.fileNotFound filename))
    | some sql =>
      if filename ∈ ledger then
        let (sent, applied) := applyFiles read schema ledger filenames
        (opening schema ++ sent, applied)
      else
        let (sent, applied) := applyFiles read schema (ledger ++ [filename]) filenames
        (opening schema ++ migration schema sql ++ sent, applied.map (filename :: ·))

/-- Apply the files that are not yet recorded for a schema. -/
def apply (read : String → Option String) (ledger : List String) (schema : String)
    (filenames : List String) : List Sql × Except ApplyError (List String) :=
  match validated schema with
  | .error e => ([], .error (.schema e))
  | .ok schema => applyFiles read schema ledger filenames

def controlMigrations : List String := ["000_control_plane.sql"]

def tenantMigrations : List String := ["001_translation_sessions.sql"]

def applyControl (read : String → Option String) (ledger : List String) (schema : String) :
    List Sql × Except ApplyError (List String) :=
  apply read ledger schema controlMigrations

def applyTenant (read : String → Option String) (ledger : List String) (schema : String) :
    List Sql × Except ApplyError (List String) :=
  apply read ledger schema tenantMigrations

theorem applyFiles_sent {read : String → Option String} {schema : ValidSchema}
    {ledger filenames : List String} {sql : Sql}
    (h : sql ∈ (applyFiles read schema ledger filenames).1) : sql.schema = schema := by
  induction filenames generalizing ledger with
  | nil => cases h
  | cons filename filenames ih =>
    unfold applyFiles at h
    split at h
    · cases h
    · rename_i text hread
      have hopening : sql ∈ opening schema → sql.schema = schema := by
        intro hsql
        simp only [opening, List.mem_cons, List.not_mem_nil, or_false] at hsql
        rcases hsql with rfl | rfl | rfl <;> rfl
      split at h
      · rcases List.mem_append.mp h with hsql | hsql
        · exact hopening hsql
        · exact ih hsql
      · rcases List.mem_append.mp h with hsql | hsql
        · rcases List.mem_append.mp hsql with hsql | hsql
          · exact hopening hsql
          · simp only [migration, List.mem_cons, List.not_mem_nil, or_false] at hsql
            rcases hsql with rfl | rfl <;> rfl
        · exact ih hsql

theorem apply_sent {read : String → Option String} {ledger filenames : List String}
    {schema : String} {sql : Sql} (h : sql ∈ (apply read ledger schema filenames).1) :
    sql.schema = schema ∧ validateSchema schema = .ok schema := by
  unfold apply at h
  split at h
  · cases h
  · rename_i valid hvalid
    obtain rfl := validated_eq_ok.mp hvalid
    exact ⟨applyFiles_sent h, valid.2⟩

/-- With a name that is accepted, only a missing file ends the run early. -/
theorem applyFiles_error {read : String → Option String} {schema : ValidSchema}
    {ledger filenames : List String} {e : ApplyError}
    (h : (applyFiles read schema ledger filenames).2 = .error e) :
    ∃ filename, e = .fileNotFound filename := by
  induction filenames generalizing ledger with
  | nil => cases h
  | cons filename filenames ih =>
    unfold applyFiles at h
    split at h
    · cases h
      exact ⟨filename, rfl⟩
    · split at h
      · exact ih h
      · simp only [Except.map] at h
        split at h
        · rename_i e' hrest
          cases h
          exact ih hrest
        · cases h

/-- The migrations refuse the names that the migrated schemas are not under. -/
theorem applyTenant_refuses {Uuid : Type} (db : Migrations Uuid) (read : String → Option String)
    (ledger : List String) (schema : String) (e : SchemaError) :
    (applyTenant read ledger schema).2 = .error (.schema e) ↔
      tenancy.applyTenant db schema = .error e := by
  unfold applyTenant apply tenancy.applyTenant
  cases hvalid : validateSchema schema with
  | error e' =>
    rw [validated_error hvalid]
    simp [bind, Except.bind]
  | ok name =>
    obtain rfl := validateSchema_eq_ok hvalid
    rw [validated_eq_ok.mpr (rfl : (⟨name, hvalid⟩ : ValidSchema).1 = name)]
    refine ⟨fun h => ?_, fun h => (by cases h)⟩
    obtain ⟨filename, hfile⟩ := applyFiles_error h
    cases hfile

end lad_translate.migrate

namespace lad_translate.tenancy

open sessions

/-- A statement of a store, of a resolver or of the migrations holds the name. -/
inductive Interpolated : String → Prop
  | store {tenant : config.TenantContext} {store : SessionStore}
      (hnew : api.newStore tenant = .ok store) (parts : List String) :
      Interpolated (storeQuery store parts).schema
  | resolver (r : TenantResolver) (now stored : ℚ) (tenant_id : String)
      (answer : Except String (Option TenantColumns)) {sql : Sql}
      (hsent : sql ∈ (r.lookup now stored tenant_id answer).1) : Interpolated sql.schema
  | migrations (read : String → Option String) (ledger filenames : List String) (schema : String)
      {sql : Sql} (hsent : sql ∈ (migrate.apply read ledger schema filenames).1) :
      Interpolated sql.schema

/-- What stands in a statement is what `validate_schema` accepts. -/
theorem interpolated_iff {name : String} :
    Interpolated name ↔ validateSchema name = .ok name := by
  constructor
  · intro h
    cases h with
    | @store tenant store hnew parts =>
      obtain ⟨name', hvalid, hstore⟩ := bind_eq_ok.mp hnew
      obtain rfl := validateSchema_eq_ok hvalid
      cases hstore
      exact hvalid
    | resolver r now stored tenant_id answer hsent =>
      rw [TenantResolver.lookup_sent hsent]
      exact r.control_schema.2
    | migrations read ledger filenames schema hsent =>
      obtain ⟨hname, hvalid⟩ := migrate.apply_sent hsent
      rwa [hname]
  · intro hvalid
    have hsent : (⟨["CREATE SCHEMA IF NOT EXISTS ", ""], name⟩ : Sql) ∈
        (migrate.apply (fun _ => some "") [] name migrate.tenantMigrations).1 := by
      unfold migrate.apply
      rw [validated_eq_ok.mpr (rfl : (⟨name, hvalid⟩ : ValidSchema).1 = name)]
      exact List.mem_cons_self
    exact .migrations _ _ _ _ hsent

/-- The check of a name: it accepts the safe ones, unchanged, and no other, and
nothing else stands in a statement. -/
structure CheckedExactly (name : String) : Prop where
  accepted : (∃ name', validateSchema name = .ok name') ↔ SafeName name
  unchanged : ∀ name', validateSchema name = .ok name' → name' = name
  interpolated : Interpolated name → SafeName name

/-- The check of a name is exact when the name is not a safe identifier with a
newline after it. -/
theorem the_check_is_exact_iff_no_newline_follows (name : String) :
    CheckedExactly name ↔ ¬ EndsInNewline name := by
  constructor
  · intro h hnewline
    have hsafe := h.accepted.mp ⟨name, validateSchema_ok_iff.mpr (.inr hnewline)⟩
    exact not_endsInNewline (safeName_iff.mp hsafe).1 hnewline
  · intro hnot
    have hsafe : validateSchema name = .ok name → SafeName name := fun h =>
      (validateSchema_ok_iff.mp h).resolve_right hnot
    refine ⟨⟨?_, ?_⟩, fun name' => validateSchema_eq_ok, ?_⟩
    · rintro ⟨name', h⟩
      obtain rfl := validateSchema_eq_ok h
      exact hsafe h
    · intro h
      exact ⟨name, validateSchema_ok_iff.mpr (.inl h)⟩
    · intro h
      exact hsafe (interpolated_iff.mp h)

/-- A reserved name goes into the statements with a newline after it. -/
theorem a_newline_goes_into_the_statements :
    validateSchema "public\n" = .ok "public\n" ∧
      (∃ sql ∈ (migrate.applyTenant (fun _ => some "") [] "public\n").1,
        sql.text = "CREATE SCHEMA IF NOT EXISTS public\n") ∧
      ¬ CheckedExactly "public\n" := by
  have hvalid : validateSchema "public\n" = .ok "public\n" := by decide +kernel
  refine ⟨hvalid, ?_, ?_⟩
  · decide +kernel
  · intro h
    have hnewline := (h.accepted.mp ⟨_, hvalid⟩).rest '\n' (by decide +kernel)
    exact absurd hnewline (by decide)

end lad_translate.tenancy
