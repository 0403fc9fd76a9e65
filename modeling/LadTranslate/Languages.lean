-- The languages of a session, as its page lists them and as a listener joins
-- them (api/languages.py, api/join.py and session/room.py): the entries of the
-- listing, the answer to a request with an entry's code, and the track that the
-- translator publishes.
import LadTranslate.Join
import LadTranslate.OrderedDicts
import LadTranslate.Whisper

open fallible ordered_dicts

namespace lad_translate.api

open config sessions stt_whisper

/-! ## The names -/

structure LanguageInfo where
  code : String
  native : String
  english : String
  rtl : Bool := false
deriving DecidableEq

def languageEntries : List (String × LanguageInfo) := [
  ("ar", { code := "ar", native := "العربية", english := "Arabic", rtl := true }),
  ("de", { code := "de", native := "Deutsch", english := "German" }),
  ("en", { code := "en", native := "English", english := "English" }),
  ("es", { code := "es", native := "Español", english := "Spanish" }),
  ("fa", { code := "fa", native := "فارسی", english := "Persian", rtl := true }),
  ("fr", { code := "fr", native := "Français", english := "French" }),
  ("he", { code := "he", native := "עברית", english := "Hebrew", rtl := true }),
  ("hi", { code := "hi", native := "हिन्दी", english := "Hindi" }),
  ("it", { code := "it", native := "Italiano", english := "Italian" }),
  ("ja", { code := "ja", native := "日本語", english := "Japanese" }),
  ("ko", { code := "ko", native := "한국어", english := "Korean" }),
  ("ml", { code := "ml", native := "മലയാളം", english := "Malayalam" }),
  ("nl", { code := "nl", native := "Nederlands", english := "Dutch" }),
  ("pt", { code := "pt", native := "Português", english := "Portuguese" }),
  ("ru", { code := "ru", native := "Русский", english := "Russian" }),
  ("ta", { code := "ta", native := "தமிழ்", english := "Tamil" }),
  ("te", { code := "te", native := "తెలుగు", english := "Telugu" }),
  ("tr", { code := "tr", native := "Türkçe", english := "Turkish" }),
  ("ur", { code := "ur", native := "اردو", english := "Urdu", rtl := true }),
  ("zh", { code := "zh", native := "中文", english := "Chinese" })]

theorem languageEntries_nodup : (languageEntries.map Prod.fst).Nodup := by decide +kernel

/-- `_LANGUAGES`. -/
def LANGUAGES : OrderedDict String LanguageInfo := ⟨languageEntries, languageEntries_nodup⟩

/-- Each language stands under its own code. -/
theorem code_of_get? {key : String} {info : LanguageInfo} (h : LANGUAGES.get? key = some info) :
    info.code = key := by
  have hall : ∀ entry ∈ languageEntries, entry.2.code = entry.1 := by decide +kernel
  exact hall _ (OrderedDict.get?_eq_some.mp h)

/-- `str.upper()`. The laws hold for any table. -/
class UpperCase where
  upper : String → String

namespace ascii

/-- A table that is right for ASCII text. -/
scoped instance : UpperCase where
  upper s := String.ofList (s.toList.map Char.toUpper)

end ascii

section

variable [CaseTable] [UpperCase]

/-- Look up a language, falling back to the raw code. -/
def describe (code : String) : LanguageInfo :=
  (LANGUAGES.get? (CaseTable.lower code)).getD
    { code, native := UpperCase.upper code, english := UpperCase.upper code }

/-- A code is shown as itself unless the table has its lower-case form, and that
is another code. -/
theorem describe_code_iff (code : String) :
    (describe code).code = code ↔
      (CaseTable.lower code ∈ LANGUAGES.keys → CaseTable.lower code = code) := by
  unfold describe
  cases hget : LANGUAGES.get? (CaseTable.lower code) with
  | none =>
    have hkey := OrderedDict.get?_eq_none.mp hget
    exact iff_of_true rfl fun h => absurd h hkey
  | some info =>
    rw [Option.getD_some, code_of_get? hget]
    have hkey := OrderedDict.mem_keys.mpr ⟨info, hget⟩
    exact ⟨fun h _ => h, fun h => h hkey⟩

end

/-! ## The listing -/

structure LanguageEntry where
  code : String
  native : String
  english : String
  rtl : Bool
  available : Bool
  is_source : Bool
deriving DecidableEq

structure SessionInfo where
  session_id : String
  event_name : String
  status : Status
  languages : List LanguageEntry
deriving DecidableEq

variable {Uuid : Type} [DecidableEq Uuid] [UuidText Uuid]

section

variable [CaseTable] [UpperCase]

/-- The speaker's own track, as an entry. -/
def sourceEntry (live : List String) (source_language : String) : LanguageEntry :=
  let source := describe source_language
  { code := source.code, native := source.native, english := "original audio", rtl := source.rtl,
    available := live = [] ∨ sourceTrackName ∈ live, is_source := true }

def targetEntry (live : List String) (code : String) : LanguageEntry :=
  let info := describe code
  { code := info.code, native := info.native, english := info.english, rtl := info.rtl,
    available := live = [] ∨ code ∈ live, is_source := false }

namespace App

omit [DecidableEq Uuid] in
/-- `_describe`: the language list with live availability. There is an inspector
when there is an issuer. -/
def describeSession (app : App) (session : SessionRow Uuid) : Except HttpException SessionInfo :=
  if ¬ Admits session.status then .error sessionHasEnded
  else
    let live := if app.issuer.isSome then app.published_languages session.room_name else []
    .ok {
      session_id := UuidText.text session.session_id
      event_name := session.event_name
      status := session.status
      languages := sourceEntry live session.source_language ::
        session.target_languages.map (targetEntry live) }

/-- The two shapes of the address of a session. -/
inductive Address
  | session (session_id : String)
  | room (room_name : String)
deriving DecidableEq

def Address.join : Address → String → Endpoint
  | .session session_id, language => .join session_id language
  | .room room_name, language => .roomJoin room_name language

def find (app : App) (db : Database Uuid) :
    Address → Except HttpException (SessionStore × SessionRow Uuid)
  | .session session_id => app.loadSession db session_id
  | .room room_name => app.loadRoom db room_name

/-- `session_info` and `room_info`. -/
def info (app : App) (db : Database Uuid) (address : Address) :
    Except HttpException SessionInfo := do
  let (_, session) ← app.find db address
  app.describeSession session

end App

end

/-- The names of the tracks that `publish_languages` publishes. -/
def publishLanguages (languages : List String) : List String := languages.map ("lang-" ++ ·)

/-! ## Joining -/

/-- A configuration has the languages of the row. -/
def Accepted (session : SessionRow Uuid) : Prop :=
  ∃ config : SessionConfig, config.source_language = session.source_language ∧
    config.targetCodes = session.target_languages

/-- The request registers its listener under an id that is new. -/
def Fresh (db : Database Uuid) (store : SessionStore) (request : Request) : Prop :=
  ∃ listener : Uuid, UuidText.cast request.listener_id = some listener ∧
    listener ∉ (db store.tenant.schema).session_listeners.rows.map (·.listener_id)

/-- The track of a language that a session offers. -/
def trackOf (session : SessionRow Uuid) (language : String) : String :=
  if language = session.source_language then sourceTrackName else "lang-" ++ language

theorem lang_ne_source (code : String) : "lang-" ++ code ≠ sourceTrackName := by
  intro h
  have hhead := congrArg (fun track => track.toList.head?) h
  exact absurd hhead (by simp [sourceTrackName])

omit [DecidableEq Uuid] [UuidText Uuid] in
/-- A track tells which language it carries. -/
theorem trackOf_injective (session : SessionRow Uuid) : Function.Injective (trackOf session) := by
  intro language language' h
  unfold trackOf at h
  by_cases hsource : language = session.source_language
  · by_cases hsource' : language' = session.source_language
    · rw [hsource, hsource']
    · rw [if_pos hsource, if_neg hsource'] at h
      exact absurd h.symm (lang_ne_source language')
  · by_cases hsource' : language' = session.source_language
    · rw [if_neg hsource, if_pos hsource'] at h
      exact absurd h (lang_ne_source language)
    · rw [if_neg hsource, if_neg hsource'] at h
      exact (String.append_right_inj _).mp h

omit [DecidableEq Uuid] [UuidText Uuid] in
theorem Accepted.nodup {session : SessionRow Uuid} (h : Accepted session) :
    (session.source_language :: session.target_languages).Nodup := by
  obtain ⟨config, hsource, htargets⟩ := h
  rw [← hsource, ← htargets]
  exact List.nodup_cons.mpr ⟨config.source_apart, config.targetCodes_nodup⟩

omit [DecidableEq Uuid] [UuidText Uuid] in
/-- The tracks of an accepted session are the speaker's own and the translator's. -/
theorem tracks_eq {session : SessionRow Uuid} (h : Accepted session) :
    (session.source_language :: session.target_languages).map (trackOf session) =
      sourceTrackName :: publishLanguages session.target_languages := by
  have hapart := (List.nodup_cons.mp h.nodup).1
  rw [List.map_cons, trackOf, if_pos rfl, publishLanguages]
  congr 1
  apply List.map_congr_left
  intro code hcode
  have hne : code ≠ session.source_language := by
    rintro rfl
    exact hapart hcode
  rw [trackOf, if_neg hne]

namespace App

variable {app : App} {db : Database Uuid} {store : SessionStore} {session : SessionRow Uuid}
  {address : Address} {request : Request} {language url : String}

theorem load_join (language : String) : app.load db (address.join language) = app.find db address := by
  cases address <;> rfl

theorem issueListener_refuses (hissuer : app.issuer.isSome = true) (hstatus : Admits session.status)
    (hnot : ¬ (language = session.source_language ∨ language ∈ session.target_languages)) :
    app.issueListener db request store session language url =
      .error ⟨400, .notOffered language (session.source_language :: session.target_languages)⟩ := by
  obtain ⟨issuer, hsome⟩ := Option.isSome_iff_exists.mp hissuer
  unfold issueListener
  rw [hsome]
  simp only
  rw [if_neg (not_not_intro hstatus), if_pos (not_or.mp hnot)]

/-- A language that is offered is given its track. -/
theorem issueListener_offered (hfound : Found db store session)
    (hissuer : app.issuer.isSome = true) (hstatus : Admits session.status)
    (htext : UuidText.cast (UuidText.text session.session_id) = some session.session_id)
    (hfresh : Fresh db store request)
    (hoffered : language = session.source_language ∨ language ∈ session.target_languages)
    (url : String) :
    ∃ db' pass, app.issueListener db request store session language url = .ok (db', pass) ∧
      pass.track_name = trackOf session language ∧
      pass.is_source = decide (language = session.source_language) := by
  obtain ⟨issuer, hsome⟩ := Option.isSome_iff_exists.mp hissuer
  obtain ⟨listener, hcast, hnew⟩ := hfresh
  obtain ⟨session_id, hget⟩ := hfound
  obtain ⟨hmem, hT⟩ := SessionStore.getSession_spec hget
  obtain ⟨schema, hjoined⟩ := SessionStore.listenerJoined_ok hcast hnew htext
    (List.mem_map_of_mem hmem) hT request.now language
  unfold issueListener
  rw [hsome]
  simp only
  rw [if_neg (not_not_intro hstatus), if_neg (by rwa [← not_or, not_not]),
    unhandled_eq_ok.mpr hjoined]
  exact ⟨_, _, rfl, rfl, rfl⟩

/-- A join is the registration of a listener of the session that the address finds. -/
theorem post_join (hfind : app.find db address = .ok (store, session))
    (hissuer : app.issuer.isSome = true) (request : Request) :
    ∃ url, ∀ language, app.post db request (address.join language) =
      (app.issueListener db request store session language url).map fun p => (p.1, .inl p.2) := by
  obtain ⟨url, hurl⟩ := clientUrl_ok hissuer request
  refine ⟨url, ?_⟩
  intro language
  unfold post
  rw [load_join, hfind, hurl]
  cases address <;> simp only [Address.join, bind, Except.bind] <;>
    cases app.issueListener db request store session language url <;> rfl

/-- A join gives the track of a language exactly when it asks for that language,
and the session offers it. -/
theorem post_join_iff (hfind : app.find db address = .ok (store, session))
    (hissuer : app.issuer.isSome = true) (hstatus : Admits session.status)
    (htext : UuidText.cast (UuidText.text session.session_id) = some session.session_id)
    (hfresh : Fresh db store request) {code : String}
    (hcode : code = session.source_language ∨ code ∈ session.target_languages)
    (language : String) :
    (∃ db' pass, app.post db request (address.join language) = .ok (db', .inl pass) ∧
        pass.track_name = trackOf session code ∧
        pass.is_source = decide (code = session.source_language)) ↔ language = code := by
  obtain ⟨url, hpost⟩ := post_join hfind hissuer request
  have hfound := load_found ((load_join language).trans hfind)
  rw [hpost]
  by_cases hoffered : language = session.source_language ∨ language ∈ session.target_languages
  · obtain ⟨db', pass, hissued, htrack, hsource⟩ :=
      issueListener_offered hfound hissuer hstatus htext hfresh hoffered url
    rw [hissued]
    constructor
    · rintro ⟨_, _, hpass, htrack', -⟩
      cases hpass
      exact trackOf_injective session (htrack.symm.trans htrack')
    · rintro rfl
      exact ⟨db', pass, rfl, htrack, hsource⟩
  · rw [issueListener_refuses hissuer hstatus hoffered]
    constructor
    · rintro ⟨_, _, hpass, -⟩
      cases hpass
    · rintro rfl
      exact absurd hcode hoffered

end App

/-! ## The listing and the tracks -/

/-- The code of an entry is posted back, and answered with the track. The source
is the entry that is marked, and no other. -/
def Yields (app : App) (db : Database Uuid) (request : Request) (address : App.Address)
    (entry : LanguageEntry) (track : String) : Prop :=
  (entry.is_source = true ↔ track = sourceTrackName) ∧
    ∃ db' pass, app.post db request (address.join entry.code) = .ok (db', .inl pass) ∧
      pass.track_name = track ∧ pass.is_source = entry.is_source

section

variable {app : App} {db : Database Uuid} {store : SessionStore} {session : SessionRow Uuid}
  {address : App.Address} {request : Request}

/-- An entry yields the track of its language when it shows the code of its language. -/
theorem yields_iff (hfind : app.find db address = .ok (store, session))
    (hissuer : app.issuer.isSome = true) (hstatus : Admits session.status)
    (htext : UuidText.cast (UuidText.text session.session_id) = some session.session_id)
    (hfresh : Fresh db store request) {code : String} {entry : LanguageEntry}
    (hcode : code = session.source_language ∨ code ∈ session.target_languages)
    (hmarked : entry.is_source = decide (code = session.source_language)) :
    Yields app db request address entry (trackOf session code) ↔ entry.code = code := by
  rw [← App.post_join_iff hfind hissuer hstatus htext hfresh hcode entry.code]
  unfold Yields
  rw [hmarked]
  refine and_iff_right ?_
  rw [decide_eq_true_iff, trackOf]
  by_cases hsource : code = session.source_language
  · rw [if_pos hsource]
    exact iff_of_true hsource rfl
  · rw [if_neg hsource]
    exact iff_of_false hsource (lang_ne_source code)

variable [CaseTable] [UpperCase]

/-- Every entry of the listing yields its own language's track: the first the
speaker's, the others those that the translator publishes, in their order. -/
def ListedLanguagesJoin (app : App) (db : Database Uuid) (request : Request)
    (address : App.Address) (target_languages : List String) : Prop :=
  ∃ info, app.info db address = .ok info ∧
    List.Forall₂ (Yields app db request address) info.languages
      (sourceTrackName :: publishLanguages target_languages) ∧
    (sourceTrackName :: publishLanguages target_languages).Nodup

/-- Every entry joins as its own language exactly when the case of no configured
code is lost in the table of names. -/
theorem the_listed_languages_join_iff (hfind : app.find db address = .ok (store, session))
    (hissuer : app.issuer.isSome = true) (hstatus : Admits session.status)
    (haccepted : Accepted session)
    (htext : UuidText.cast (UuidText.text session.session_id) = some session.session_id)
    (hfresh : Fresh db store request) :
    ListedLanguagesJoin app db request address session.target_languages ↔
      ∀ code ∈ session.source_language :: session.target_languages,
        CaseTable.lower code ∈ LANGUAGES.keys → CaseTable.lower code = code := by
  have hdistinct := haccepted.nodup.map (trackOf_injective session)
  obtain ⟨live, hinfo⟩ : ∃ live, app.info db address = .ok {
      session_id := UuidText.text session.session_id
      event_name := session.event_name
      status := session.status
      languages := sourceEntry live session.source_language ::
        session.target_languages.map (targetEntry live) } := by
    unfold App.info App.describeSession
    rw [hfind]
    exact ⟨_, if_neg (not_not_intro hstatus)⟩
  have hsource : Yields app db request address (sourceEntry live session.source_language)
      (trackOf session session.source_language) ↔
      (describe session.source_language).code = session.source_language :=
    yields_iff hfind hissuer hstatus htext hfresh (.inl rfl) (decide_eq_true rfl).symm
  have htarget : ∀ code ∈ session.target_languages,
      (Yields app db request address (targetEntry live code) (trackOf session code) ↔
        (describe code).code = code) := by
    intro code hcode
    apply yields_iff hfind hissuer hstatus htext hfresh (.inr hcode)
    refine (decide_eq_false ?_).symm
    rintro rfl
    exact (List.nodup_cons.mp haccepted.nodup).1 hcode
  have hall : List.Forall₂ (Yields app db request address)
      (sourceEntry live session.source_language :: session.target_languages.map (targetEntry live))
      ((session.source_language :: session.target_languages).map (trackOf session)) ↔
      ∀ code ∈ session.source_language :: session.target_languages,
        (describe code).code = code := by
    rw [List.map_cons, List.forall₂_cons, hsource, List.forall₂_map_left_iff,
      List.forall₂_map_right_iff, List.forall₂_same, List.forall_mem_cons]
    exact and_congr_right fun _ => forall₂_congr htarget
  simp only [describe_code_iff] at hall
  unfold ListedLanguagesJoin
  rw [← tracks_eq haccepted, ← hall]
  constructor
  · rintro ⟨info, hok, hyields, -⟩
    rw [hinfo] at hok
    cases hok
    exact hyields
  · intro hyields
    exact ⟨_, hinfo, hyields, hdistinct⟩

end

open canonical ascii stt_whisper.ascii

/-- The keynote, translated to one language. -/
def keynoteIn (code : String) (hne : code ≠ "") (hapart : code ≠ "en") : SessionConfig where
  session_id := SessionConfig.keynote.session_id
  tenant := SessionConfig.keynote.tenant
  room_name := "hall"
  event_name := "keynote"
  source_language := "en"
  targets := [{ code, voice_id := "pt_BR-faber-medium", code_ne := hne }]
  targets_ne := List.cons_ne_nil _ _
  targets_le := by simp
  codes_nodup := List.nodup_singleton _
  source_apart := by simpa using hapart.symm

/-- A service for the keynote's tenant. -/
def venue : App where
  pool := true
  tenants := [SessionConfig.keynote.tenant]
  issuer := some {
    livekit_url := "wss://10.0.0.2"
    internal_url := "ws://127.0.0.1"
    forListener := fun room language listener_id => room ++ language ++ listener_id
    forPublisher := fun room identity => room ++ identity }
  published_languages := fun _ => []

def keynoteRow (config : SessionConfig) : SessionRow String :=
  .starting config SessionConfig.keynote.session_id SessionConfig.keynote.tenant.tenant_id true 0

/-- A database with the one session. -/
def createdIn (config : SessionConfig) : Database String := fun _ => {
  translation_sessions := ⟨[keynoteRow config], List.nodup_singleton _⟩
  session_listeners := .empty
  session_transcripts := .empty
  listeners_session_fk := fun _ h => absurd h List.not_mem_nil
  transcripts_session_fk := fun _ h => absurd h List.not_mem_nil }

def phone : Request := ⟨"10.0.0.7", 1, "11111111-2222-3333-4444-555555555555"⟩

theorem keynote_id : (UuidText.cast SessionConfig.keynote.session_id : Option String) =
    some SessionConfig.keynote.session_id := by
  decide +kernel

theorem venue_finds (config : SessionConfig) :
    venue.find (createdIn config) (.session SessionConfig.keynote.session_id) =
      .ok (⟨SessionConfig.keynote.tenant⟩, keynoteRow config) := by
  have htenant : (SessionStore.tenantUuid ⟨SessionConfig.keynote.tenant⟩ :
      Except StoreError String) = .ok SessionConfig.keynote.tenant.tenant_id := by
    decide +kernel
  have hget : SessionStore.getSession ⟨SessionConfig.keynote.tenant⟩
      (createdIn config SessionConfig.keynote.tenant.schema) SessionConfig.keynote.session_id =
        .ok (some (keynoteRow config)) := by
    unfold SessionStore.getSession
    rw [SessionStore.uuid_eq_ok.mpr keynote_id, htenant]
    simp [createdIn, keynoteRow, SessionRow.starting, bind, Except.bind, pure, Except.pure]
  show App.askTenants _ _ [SessionConfig.keynote.tenant] = _
  rw [App.askTenants, hget]
  rfl

/-- The page lists the code in lower case, and it is refused when it comes back. -/
theorem a_listed_language_is_refused :
    (∃ info, venue.info (createdIn (keynoteIn "PT" (by simp) (by simp)))
        (.session SessionConfig.keynote.session_id) = .ok info ∧
      info.languages.map (·.code) = ["en", "pt"]) ∧
    venue.post (createdIn (keynoteIn "PT" (by simp) (by simp))) phone
        (.join SessionConfig.keynote.session_id "pt") =
      .error ⟨400, .notOffered "pt" ["en", "PT"]⟩ ∧
    ¬ ListedLanguagesJoin venue (createdIn (keynoteIn "PT" (by simp) (by simp))) phone
      (.session SessionConfig.keynote.session_id) ["PT"] := by
  have hfind := venue_finds (keynoteIn "PT" (by simp) (by simp))
  obtain ⟨info, hinfo, hlisted⟩ : ∃ info, venue.info (createdIn (keynoteIn "PT" (by simp) (by simp)))
      (.session SessionConfig.keynote.session_id) = .ok info ∧
      info.languages.map (·.code) = ["en", "pt"] := by
    unfold App.info
    rw [hfind]
    exact ⟨_, rfl, by decide +kernel⟩
  have hrefused : venue.post (createdIn (keynoteIn "PT" (by simp) (by simp))) phone
      (.join SessionConfig.keynote.session_id "pt") = .error ⟨400, .notOffered "pt" ["en", "PT"]⟩ := by
    obtain ⟨url, hpost⟩ := App.post_join hfind rfl phone
    rw [← App.Address.join, hpost, App.issueListener_refuses rfl (.inl rfl) (by decide)]
    rfl
  refine ⟨⟨info, hinfo, hlisted⟩, hrefused, ?_⟩
  rintro ⟨info', hinfo', hyields, -⟩
  rw [hinfo] at hinfo'
  cases hinfo'
  obtain ⟨first, rest, -, hrest, hlanguages⟩ := List.forall₂_cons_right_iff.mp hyields
  obtain ⟨second, _, ⟨-, db', pass, hpost, -⟩, -, hsecond⟩ :=
    List.forall₂_cons_right_iff.mp (hrest : List.Forall₂ _ rest ["lang-PT"])
  rw [hlanguages, hsecond, List.map_cons, List.map_cons, List.cons.injEq, List.cons.injEq] at hlisted
  rw [hlisted.2.1] at hpost
  have hboth := hrefused.symm.trans hpost
  cases hboth

theorem phone_fresh (config : SessionConfig) :
    Fresh (createdIn config) ⟨SessionConfig.keynote.tenant⟩ phone := by
  refine ⟨phone.listener_id, ?_, List.not_mem_nil⟩
  decide +kernel

/-- In lower case the language is listed and joined. -/
theorem a_listed_language_is_joined :
    ListedLanguagesJoin venue (createdIn (keynoteIn "pt" (by simp) (by simp))) phone
      (.session SessionConfig.keynote.session_id) ["pt"] := by
  refine (the_listed_languages_join_iff (venue_finds (keynoteIn "pt" (by simp) (by simp))) rfl
    (.inl rfl) ⟨_, rfl, rfl⟩ keynote_id (phone_fresh _)).mpr ?_
  decide +kernel

end lad_translate.api
