-- The join service (api/join.py): the requests that let a listener or a
-- speaker into a session. A request reads one state of the database. LiveKit,
-- which makes the tokens and knows what a room publishes, is a parameter.
import LadTranslate.SessionStore

open fallible

namespace lad_translate.api

open config sessions

/-! ## The app -/

/-- What goes into the body of a refusal. -/
inductive Detail
  | text (detail : String)
  | notOffered (language : String) (offered : List String)
  | noLiveSession (room_name : String)
deriving DecidableEq

structure HttpException where
  status_code : Nat
  detail : Detail
deriving DecidableEq

def sessionHasEnded : HttpException := ⟨410, .text "this session has ended"⟩

/-- What becomes of an exception that no handler expects. -/
def internalServerError : HttpException := ⟨500, .text "Internal Server Error"⟩

/-- The issuer of the tokens, with the tokens it makes: for a listener from the
room, the language and the listener's id, for a speaker from the room and an
identity. -/
structure TokenIssuer where
  livekit_url : String
  internal_url : String
  forListener : String → String → String → String
  forPublisher : String → String → String

/-- The state of the app: whether it has a database, the active tenants of the
control plane, the issuer, and what each room publishes as its inspector sees it. -/
structure App where
  pool : Bool
  tenants : List TenantContext
  issuer : Option TokenIssuer
  published_languages : String → List String

/-- The schemas of the database, by their names. -/
abbrev Database (Uuid : Type) := String → Schema Uuid

/-- What a request brings: its host, in lower case, its time, and the id that a
listener it registers gets. -/
structure Request where
  hostname : String
  now : ℚ
  listener_id : String

/-- What a listener is given. -/
structure ListenerPass where
  listener_id : String
  session_id : String
  language : String
  url : String
  token : String
  track_name : String
  is_source : Bool
deriving DecidableEq

/-- What a speaker is given. -/
structure SpeakerPass where
  url : String
  token : String
  track_name : String
  event_name : String
  source_language : String
deriving DecidableEq

/-- `SOURCE_TRACK_NAME`. -/
def sourceTrackName : String := "source-audio"

/-- A status that the endpoints admit. -/
def Admits (status : Status) : Prop := status = .starting ∨ status = .live

instance (status : Status) : Decidable (Admits status) :=
  inferInstanceAs (Decidable (_ ∨ _))

namespace App

variable {Uuid : Type} [DecidableEq Uuid] [UuidText Uuid]

/-! ## Finding a session -/

/-- An exception of the store is not handled. -/
def unhandled {α : Type} (x : Except StoreError α) : Except HttpException α :=
  x.mapError fun _ => internalServerError

/-- Ask each tenant for the session. -/
def askTenants (db : Database Uuid) (session_id : String) :
    List TenantContext → Except HttpException (SessionStore × SessionRow Uuid)
  | [] => .error ⟨404, .text "session not found"⟩
  | tenant :: tenants => do
    match ← unhandled (SessionStore.getSession ⟨tenant⟩ (db tenant.schema) session_id) with
    | some session => return (⟨tenant⟩, session)
    | none => askTenants db session_id tenants

/-- `_load_session`. -/
def loadSession (app : App) (db : Database Uuid) (session_id : String) :
    Except HttpException (SessionStore × SessionRow Uuid) :=
  if app.pool then askTenants db session_id app.tenants
  else .error ⟨503, .text "database not configured"⟩

/-- The first of the listed sessions that is in the room. -/
def inRoom (store : SessionStore) (schema : Schema Uuid) (room_name : String) :
    List (SessionRow Uuid) → Except HttpException (Option (SessionRow Uuid))
  | [] => .ok none
  | row :: rows => do
    match ← unhandled (store.getSession schema (UuidText.text row.session_id)) with
    | some session =>
      if session.room_name = room_name then return some session
      else inRoom store schema room_name rows
    | none => inRoom store schema room_name rows

def askRooms (db : Database Uuid) (room_name : String) :
    List TenantContext → Except HttpException (SessionStore × SessionRow Uuid)
  | [] => .error ⟨404, .noLiveSession room_name⟩
  | tenant :: tenants => do
    let rows ← unhandled (SessionStore.liveSessions ⟨tenant⟩ (db tenant.schema))
    match ← inRoom ⟨tenant⟩ (db tenant.schema) room_name rows with
    | some session => return (⟨tenant⟩, session)
    | none => askRooms db room_name tenants

/-- `_load_room`. -/
def loadRoom (app : App) (db : Database Uuid) (room_name : String) :
    Except HttpException (SessionStore × SessionRow Uuid) :=
  if app.pool then askRooms db room_name app.tenants
  else .error ⟨503, .text "database not configured"⟩

/-! ## Letting someone in -/

/-- The LiveKit URL for this client. Without an issuer, the attribute error is
not handled. -/
def clientUrl (app : App) (request : Request) : Except HttpException String :=
  match app.issuer with
  | none => .error internalServerError
  | some issuer =>
    if request.hostname ∈ ["localhost", "127.0.0.1", "::1"] then .ok issuer.internal_url
    else .ok issuer.livekit_url

/-- `url or other`. -/
def orElse (url other : String) : String := if url = "" then other else url

/-- A publish-only token for the speaker. -/
def issueSpeaker (app : App) (session : SessionRow Uuid) (url : String) :
    Except HttpException SpeakerPass :=
  match app.issuer with
  | none => .error ⟨503, .text "LiveKit not configured"⟩
  | some issuer =>
    if ¬ Admits session.status then .error sessionHasEnded
    else if sourceTrackName ∈ app.published_languages session.room_name then
      .error ⟨409, .text ("someone is already speaking in this session; only one " ++
        "source track is supported")⟩
    else .ok {
      url := orElse url issuer.livekit_url
      token := issuer.forPublisher session.room_name
        ("speaker-" ++ String.ofList ((UuidText.text session.session_id).toList.take 8))
      track_name := sourceTrackName
      event_name := session.event_name
      source_language := session.source_language }

/-- Register a listener and mint their token. -/
def issueListener (app : App) (db : Database Uuid) (request : Request) (store : SessionStore)
    (session : SessionRow Uuid) (language url : String) :
    Except HttpException (Database Uuid × ListenerPass) :=
  match app.issuer with
  | none => .error ⟨503, .text "LiveKit not configured"⟩
  | some issuer =>
    if ¬ Admits session.status then .error sessionHasEnded
    else if language ≠ session.source_language ∧ language ∉ session.target_languages then
      .error ⟨400, .notOffered language (session.source_language :: session.target_languages)⟩
    else do
      let (schema, listener_id) ← unhandled (store.listenerJoined request.now
        (db store.tenant.schema) request.listener_id (UuidText.text session.session_id) language)
      return (Function.update db store.tenant.schema schema, {
        listener_id
        session_id := UuidText.text session.session_id
        language
        url := orElse url issuer.livekit_url
        token := issuer.forListener session.room_name language listener_id
        track_name :=
          if language = session.source_language then sourceTrackName else "lang-" ++ language
        is_source := language = session.source_language })

/-! ## The endpoints -/

/-- The requests that ask to be let in: by the id of a session, or by a room. -/
inductive Endpoint
  | join (session_id language : String)
  | speak (session_id : String)
  | roomJoin (room_name language : String)
  | roomSpeak (room_name : String)
deriving DecidableEq

/-- The session that a request is about. -/
def load (app : App) (db : Database Uuid) :
    Endpoint → Except HttpException (SessionStore × SessionRow Uuid)
  | .join session_id _ | .speak session_id => app.loadSession db session_id
  | .roomJoin room_name _ | .roomSpeak room_name => app.loadRoom db room_name

/-- The answer to a request: the database after it, and what its sender is given. -/
def post (app : App) (db : Database Uuid) (request : Request) (endpoint : Endpoint) :
    Except HttpException (Database Uuid × (ListenerPass ⊕ SpeakerPass)) := do
  let (store, session) ← app.load db endpoint
  let url ← app.clientUrl request
  match endpoint with
  | .join _ language | .roomJoin _ language =>
    let (db, pass) ← app.issueListener db request store session language url
    return (db, .inl pass)
  | .speak _ | .roomSpeak _ =>
    let pass ← app.issueSpeaker session url
    return (db, .inr pass)

/-! ## Who is let in -/

theorem unhandled_eq_ok {α : Type} {x : Except StoreError α} {a : α} :
    unhandled x = .ok a ↔ x = .ok a := by
  unfold unhandled
  cases x <;> simp [Except.mapError]

variable {app : App} {db : Database Uuid} {store : SessionStore} {session : SessionRow Uuid}

/-- The store finds the row by some id. -/
def Found (db : Database Uuid) (store : SessionStore) (session : SessionRow Uuid) : Prop :=
  ∃ session_id, store.getSession (db store.tenant.schema) session_id = .ok (some session)

theorem askTenants_found {session_id : String} {tenants : List TenantContext}
    (h : askTenants db session_id tenants = .ok (store, session)) : Found db store session := by
  induction tenants with
  | nil => cases h
  | cons tenant tenants ih =>
    unfold askTenants at h
    obtain ⟨found, hget, h⟩ := bind_eq_ok.mp h
    cases found with
    | none => exact ih h
    | some row =>
      cases h
      exact ⟨session_id, unhandled_eq_ok.mp hget⟩

theorem inRoom_found {schema : Schema Uuid} {room_name : String} {rows : List (SessionRow Uuid)}
    (h : inRoom store schema room_name rows = .ok (some session)) :
    ∃ session_id, store.getSession schema session_id = .ok (some session) := by
  induction rows with
  | nil => cases h
  | cons row rows ih =>
    unfold inRoom at h
    obtain ⟨found, hget, h⟩ := bind_eq_ok.mp h
    cases found with
    | none => exact ih h
    | some found =>
      simp only at h
      split at h
      · cases h
        exact ⟨_, unhandled_eq_ok.mp hget⟩
      · exact ih h

theorem askRooms_found {room_name : String} {tenants : List TenantContext}
    (h : askRooms db room_name tenants = .ok (store, session)) : Found db store session := by
  induction tenants with
  | nil => cases h
  | cons tenant tenants ih =>
    unfold askRooms at h
    obtain ⟨rows, -, h⟩ := bind_eq_ok.mp h
    obtain ⟨found, hroom, h⟩ := bind_eq_ok.mp h
    cases found with
    | none => exact ih h
    | some row =>
      cases h
      exact inRoom_found hroom

theorem loadSession_found {session_id : String}
    (h : app.loadSession db session_id = .ok (store, session)) : Found db store session := by
  unfold loadSession at h
  split at h
  · exact askTenants_found h
  · cases h

theorem loadRoom_found {room_name : String} (h : app.loadRoom db room_name = .ok (store, session)) :
    Found db store session := by
  unfold loadRoom at h
  split at h
  · exact askRooms_found h
  · cases h

/-- A request is about a row that the store finds. -/
theorem load_found {endpoint : Endpoint} (h : app.load db endpoint = .ok (store, session)) :
    Found db store session := by
  cases endpoint with
  | join session_id _ | speak session_id => exact loadSession_found h
  | roomJoin room_name _ | roomSpeak room_name => exact loadRoom_found h

/-- A request is about a row of the schema of the store that found it. -/
theorem load_mem {endpoint : Endpoint} (h : app.load db endpoint = .ok (store, session)) :
    session ∈ (db store.tenant.schema).translation_sessions.rows := by
  obtain ⟨session_id, hget⟩ := load_found h
  exact (SessionStore.getSession_spec hget).1

theorem clientUrl_ok (h : app.issuer.isSome = true) (request : Request) :
    ∃ url, app.clientUrl request = .ok url := by
  obtain ⟨issuer, hissuer⟩ := Option.isSome_iff_exists.mp h
  unfold clientUrl
  rw [hissuer]
  by_cases hlocal : request.hostname ∈ ["localhost", "127.0.0.1", "::1"]
  · exact ⟨_, if_pos hlocal⟩
  · exact ⟨_, if_neg hlocal⟩

theorem clientUrl_error (h : app.issuer = none) (request : Request) :
    app.clientUrl request = .error internalServerError := by
  unfold clientUrl
  rw [h]

/-- A request about a session with another status is refused: with a 410, when
there is an issuer. -/
theorem post_refuses {request : Request} {endpoint : Endpoint}
    (hload : app.load db endpoint = .ok (store, session)) (hstatus : ¬ Admits session.status) :
    app.post db request endpoint =
      .error (if app.issuer.isSome then sessionHasEnded else internalServerError) := by
  unfold post
  rw [hload]
  cases hissuer : app.issuer with
  | none =>
    rw [clientUrl_error hissuer]
    rfl
  | some issuer =>
    obtain ⟨url, hurl⟩ := clientUrl_ok (by rw [hissuer]; rfl) request
    have hlistener : ∀ language,
        app.issueListener db request store session language url = .error sessionHasEnded := by
      intro language
      unfold issueListener
      rw [hissuer]
      exact if_pos hstatus
    have hspeaker : app.issueSpeaker session url = .error sessionHasEnded := by
      unfold issueSpeaker
      rw [hissuer]
      exact if_pos hstatus
    rw [hurl]
    cases endpoint with
    | join _ language | roomJoin _ language => simp [bind, Except.bind, hlistener]
    | speak _ | roomSpeak _ => simp [bind, Except.bind, hspeaker]

end App

end lad_translate.api
