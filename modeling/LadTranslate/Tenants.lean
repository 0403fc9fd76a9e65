-- Tenants in one schema: what a store's call leaves of the rows of the other
-- tenants, and whose rows it shows. One statement has no tenant filter: the
-- conflict clause of `record_transcript`, whose key does not hold the tenant.
import LadTranslate.SessionStore

open fallible tables

namespace lad_translate.sessions

open config

section

variable {Uuid : Type} [DecidableEq Uuid]

/-- The rows of the other tenants. -/
def others (T : Uuid) (schema : Schema Uuid) :
    List (SessionRow Uuid) × List (ListenerRow Uuid) × List (StoredTranscript Uuid) :=
  (schema.translation_sessions.rows.filter (·.tenant_id ≠ T),
    schema.session_listeners.rows.filter (·.tenant_id ≠ T),
    schema.session_transcripts.rows.filter (·.tenant_id ≠ T))

/-- Only rows of the tenant are returned or counted. -/
def ShowsOnly (T : Uuid) (schema : Schema Uuid) : Answer Uuid → Prop
  | .none | .id _ => True
  | .billing billing => ∃ r ∈ schema.translation_sessions.rows, r.tenant_id = T ∧
      r.billed_seconds = some billing.seconds ∧ r.billed_language_count = some billing.language_count
  | .session row => ∀ r ∈ row, r.tenant_id = T
  | .listed rows => ∀ r ∈ rows, r.tenant_id = T
  | .counts counts => ∃ rows : List (ListenerRow Uuid),
      rows.Sublist schema.session_listeners.rows ∧ (∀ r ∈ rows, r.tenant_id = T) ∧
        counts = SessionStore.countByLanguage rows
  | .transcript rows => ∀ r ∈ rows, r.tenant_id = T

/-- A call of a tenant's store keeps to the tenant. A call that raises changes
nothing, and shows nothing. -/
def KeepsToTenant [UuidText Uuid] (store : SessionStore) (T : Uuid) (now : ℚ)
    (schema : Schema Uuid) (call : StoreCall) : Prop :=
  ∀ schema' answer, store.call now schema call = .ok (schema', answer) →
    others T schema' = others T schema ∧ ShowsOnly T schema' answer

/-- The call records a transcript row whose session, chunk and language are
those of a row of another tenant, with another translation, latency or mark. -/
def Overwrites [UuidText Uuid] (T : Uuid) (schema : Schema Uuid) : StoreCall → Prop
  | .recordTranscript session_id row => row.t_audio_start ≤ row.t_audio_end ∧
      ∃ r ∈ schema.session_transcripts.rows, UuidText.cast session_id = some r.session_id ∧
        r.chunk_id = row.chunk_id ∧ r.language = row.language ∧ r.tenant_id ≠ T ∧
        (r.translated_text, r.latency_s, r.revised) ≠
          (row.translated_text, row.latency_s, row.revised)
  | _ => False

variable {T : Uuid} {schema schema' : Schema Uuid}

theorem others_eq (hsessions : schema'.translation_sessions.rows.filter (·.tenant_id ≠ T) =
      schema.translation_sessions.rows.filter (·.tenant_id ≠ T))
    (hlisteners : schema'.session_listeners.rows.filter (·.tenant_id ≠ T) =
      schema.session_listeners.rows.filter (·.tenant_id ≠ T))
    (htranscripts : schema'.session_transcripts.rows.filter (·.tenant_id ≠ T) =
      schema.session_transcripts.rows.filter (·.tenant_id ≠ T)) :
    others T schema' = others T schema := by
  rw [others, hsessions, hlisteners, htranscripts]
  rfl

/-- A statement that changes sessions of the tenant, and keeps their tenant,
leaves the sessions of the others. -/
theorem sessions_of_others {pick : SessionRow Uuid → Bool}
    {f : SessionRow Uuid → Except StoreError (SessionRow Uuid)}
    (hrows : List.Forall₂ (Comes pick f) schema.translation_sessions.rows
      schema'.translation_sessions.rows)
    (hpick : ∀ r, pick r = true → r.tenant_id = T)
    (htenant : ∀ r r', f r = .ok r' → r'.tenant_id = r.tenant_id) :
    schema'.translation_sessions.rows.filter (·.tenant_id ≠ T) =
      schema.translation_sessions.rows.filter (·.tenant_id ≠ T) := by
  apply filter_change hrows
  intro r _ r' hp hf
  right
  simp [hpick r hp, htenant r r' hf]

/-- A row that is appended for the tenant is none of the others. -/
theorem filter_appended {ρ : Type} {tenant : ρ → Uuid} {rows : List ρ} {row : ρ}
    (h : tenant row = T) :
    (rows ++ [row]).filter (fun r => decide (tenant r ≠ T)) =
      rows.filter fun r => decide (tenant r ≠ T) := by
  simp [h]

/-! ## The calls that filter on the tenant -/

variable [UuidText Uuid] {store : SessionStore} {now : ℚ}

theorem createSession_keeps (hT : store.tenantUuid = .ok T) (config : SessionConfig)
    (latency_credible : Bool) :
    KeepsToTenant store T now schema (.createSession config latency_credible) := by
  intro schema' answer h
  obtain ⟨⟨s', text⟩, hcall, heq⟩ := map_eq_ok.mp h
  cases heq
  obtain ⟨id, T', -, hT', hrows, hlisteners, htranscripts⟩ := SessionStore.createSession_spec hcall
  cases hT.symm.trans hT'
  refine ⟨others_eq ?_ (by rw [hlisteners]) (by rw [htranscripts]), trivial⟩
  rw [hrows]
  exact filter_appended rfl

theorem markLive_keeps (hT : store.tenantUuid = .ok T) (session_id : String) :
    KeepsToTenant store T now schema (.markLive session_id) := by
  intro schema' answer h
  obtain ⟨s', hcall, heq⟩ := map_eq_ok.mp h
  cases heq
  obtain ⟨id, T', -, hT', hrows, hlisteners, htranscripts⟩ := SessionStore.updateStatus_spec hcall
  cases hT.symm.trans hT'
  refine ⟨others_eq ?_ (by rw [hlisteners]) (by rw [htranscripts]), trivial⟩
  refine sessions_of_others hrows ?_ fun r r' hf => (SessionRow.setStatus_eq_ok hf).2.1
  intro r hr
  simp only [decide_eq_true_eq] at hr
  exact hr.2

theorem endSession_keeps (hT : store.tenantUuid = .ok T) (session_id : String)
    (failure_reason : Option String) :
    KeepsToTenant store T now schema (.endSession session_id failure_reason) := by
  intro schema' answer h
  obtain ⟨⟨s', billing⟩, hcall, heq⟩ := map_eq_ok.mp h
  cases heq
  obtain ⟨id, T', status, hT', -, hrows, hbilling, hlisteners, htranscripts⟩ :=
    SessionStore.endSession_spec hcall
  cases hT.symm.trans hT'
  refine ⟨others_eq ?_ (by rw [hlisteners]) (by rw [htranscripts]), hbilling⟩
  refine sessions_of_others hrows ?_ fun r r' hf => (SessionRow.close_eq_ok hf).2.1
  intro r hr
  simp only [decide_eq_true_eq] at hr
  exact hr.2.1

theorem listenerJoined_keeps (hT : store.tenantUuid = .ok T)
    (listener_id session_id language : String) :
    KeepsToTenant store T now schema (.listenerJoined listener_id session_id language) := by
  intro schema' answer h
  obtain ⟨⟨s', text⟩, hcall, heq⟩ := map_eq_ok.mp h
  cases heq
  obtain ⟨row, hT', hrows, hsessions, htranscripts⟩ := SessionStore.listenerJoined_spec hcall
  cases hT.symm.trans hT'
  refine ⟨others_eq (by rw [hsessions]) ?_ (by rw [htranscripts]), trivial⟩
  rw [hrows]
  exact filter_appended rfl

theorem listenerLeft_keeps (hT : store.tenantUuid = .ok T) (listener_id : String) :
    KeepsToTenant store T now schema (.listenerLeft listener_id) := by
  intro schema' answer h
  obtain ⟨s', hcall, heq⟩ := map_eq_ok.mp h
  cases heq
  obtain ⟨id, T', hT', hrows, hsessions, htranscripts⟩ := SessionStore.listenerLeft_spec hcall
  cases hT.symm.trans hT'
  refine ⟨others_eq (by rw [hsessions]) ?_ (by rw [htranscripts]), trivial⟩
  apply filter_change hrows
  intro r _ r' hpick hf
  right
  simp only [decide_eq_true_eq] at hpick
  simp [hpick.2.1, (ListenerRow.leave_eq_ok hf).2.2]

/-- The calls that read keep to the tenant: each of their filters has it. -/
theorem reads_keep (hT : store.tenantUuid = .ok T) {call : StoreCall} (hcall : call.Reads) :
    KeepsToTenant store T now schema call := by
  have htenant : ∀ {T' : Uuid}, store.tenantUuid = .ok T' → T' = T := by
    intro T' hT'
    cases hT.symm.trans hT'
    rfl
  intro schema' answer h
  cases call with
  | getSession session_id =>
    obtain ⟨row, hget, heq⟩ := map_eq_ok.mp h
    cases heq
    refine ⟨rfl, ?_⟩
    intro r hr
    cases hr
    exact htenant (SessionStore.getSession_spec hget).2
  | liveSessions =>
    obtain ⟨rows, hget, heq⟩ := map_eq_ok.mp h
    cases heq
    exact ⟨rfl, fun r hr => htenant (SessionStore.liveSessions_spec hget hr).2.1⟩
  | activeListeners session_id =>
    obtain ⟨counts, hget, heq⟩ := map_eq_ok.mp h
    cases heq
    obtain ⟨rows, hsub, hrows, hcounts⟩ := SessionStore.activeListeners_spec hget
    exact ⟨rfl, rows, hsub, fun r hr => htenant (hrows r hr), hcounts⟩
  | transcript session_id language =>
    obtain ⟨rows, hget, heq⟩ := map_eq_ok.mp h
    cases heq
    exact ⟨rfl, fun r hr => htenant (SessionStore.transcript_spec hget hr).2.1⟩
  | createSession | markLive | endSession | listenerJoined | listenerLeft | recordTranscript =>
    exact hcall.elim

/-! ## The transcripts -/

omit [DecidableEq Uuid] [UuidText Uuid] in
theorem rewrite_eq_self {row r : StoredTranscript Uuid}
    (h : (r.translated_text, r.latency_s, r.revised) =
      (row.translated_text, row.latency_s, row.revised)) : row.rewrite r = r := by
  obtain ⟨⟨_, _, _, _, _, _, _, _, _⟩, _, _, _⟩ := r
  simp only [Prod.mk.injEq] at h
  obtain ⟨rfl, rfl, rfl⟩ := h
  rfl

/-- A recorded row that overwrites no row of another tenant keeps to the tenant. -/
theorem recordTranscript_keeps (hT : store.tenantUuid = .ok T) {session_id : String}
    {row : TranscriptRow} (hover : ¬ Overwrites T schema (.recordTranscript session_id row)) :
    KeepsToTenant store T now schema (.recordTranscript session_id row) := by
  intro schema' answer h
  obtain ⟨s', hcall, heq⟩ := map_eq_ok.mp h
  cases heq
  obtain ⟨id, T', hspan, hid, hT', hupsert⟩ := SessionStore.recordTranscript_spec.mp hcall
  cases hT.symm.trans hT'
  obtain ⟨hrows, hsessions, hlisteners⟩ := Schema.upsertTranscript_eq_ok hupsert
  refine ⟨others_eq (by rw [hsessions]) (by rw [hlisteners]) ?_, trivial⟩
  rcases hrows with ⟨-, hrows⟩ | ⟨-, hrows⟩
  · apply filter_change hrows
    intro r hr r' hpick hf
    cases hf
    simp only [decide_eq_true_eq, StoredTranscript.key, Prod.mk.injEq] at hpick
    obtain ⟨hsession, hchunk, hlanguage⟩ := hpick
    by_cases htenant : r.tenant_id = T
    · right
      simp [StoredTranscript.rewrite, htenant]
    · left
      by_contra hne
      have hcast := SessionStore.uuid_eq_ok.mp hid
      exact hover ⟨hspan, r, hr, hsession ▸ hcast, hchunk, hlanguage, htenant,
        fun heq => hne (rewrite_eq_self heq)⟩
  · rw [hrows]
    exact filter_appended rfl

/-- A recorded row that overwrites a row of another tenant does not. -/
theorem recordTranscript_overwrites (hT : store.tenantUuid = .ok T) {session_id : String}
    {row : TranscriptRow} (hover : Overwrites T schema (.recordTranscript session_id row)) :
    ¬ KeepsToTenant store T now schema (.recordTranscript session_id row) := by
  intro hkeeps
  obtain ⟨hspan, r, hr, hcast, hchunk, hlanguage, htenant, hdiffer⟩ := hover
  let stored : StoredTranscript Uuid :=
    { row with session_id := r.session_id, tenant_id := T, audio_span := hspan }
  have hkey : r.key = stored.key := by
    rw [StoredTranscript.key, hchunk, hlanguage]
    rfl
  obtain ⟨schema', hupsert, hrows⟩ := Schema.upsertTranscript_ok stored stored.rewrite
    (fun _ => rfl) (List.mem_map.mpr ⟨r, hr, hkey⟩)
  have hcall : store.call now schema (.recordTranscript session_id row) = .ok (schema', .none) :=
    map_eq_ok.mpr ⟨schema', SessionStore.recordTranscript_spec.mpr
      ⟨r.session_id, T, hspan, SessionStore.uuid_eq_ok.mpr hcast, hT, hupsert⟩, rfl⟩
  have hsame : schema'.session_transcripts.rows.filter (·.tenant_id ≠ T) =
      schema.session_transcripts.rows.filter (·.tenant_id ≠ T) :=
    congrArg (·.2.2) (hkeeps _ _ hcall).1
  -- the row of the other tenant is there before the call, so it is there after it
  have hafter : r ∈ schema'.session_transcripts.rows.filter (·.tenant_id ≠ T) := by
    rw [hsame]
    exact List.mem_filter.mpr ⟨hr, by simpa using htenant⟩
  obtain ⟨r', hr', ⟨-, hf⟩ | ⟨hpick, -⟩⟩ := change_mem hrows hr
  · cases hf
    have heq : stored.rewrite r = r :=
      Table.eq_of_key_eq hr' (List.mem_filter.mp hafter).1 rfl
    apply hdiffer
    rw [← heq]
    rfl
  · simp [hkey] at hpick

/-! ## The law of the tenants -/

/-- A call of a tenant's store changes no row of another tenant, and shows
none, exactly when it does not overwrite a transcript row of another tenant. -/
theorem a_store_keeps_to_its_tenant_iff (hT : store.tenantUuid = .ok T) (call : StoreCall) :
    KeepsToTenant store T now schema call ↔ ¬ Overwrites T schema call := by
  cases call with
  | createSession config latency_credible =>
    exact iff_of_true (createSession_keeps hT config latency_credible) id
  | markLive session_id => exact iff_of_true (markLive_keeps hT session_id) id
  | endSession session_id failure_reason =>
    exact iff_of_true (endSession_keeps hT session_id failure_reason) id
  | getSession session_id => exact iff_of_true (reads_keep hT trivial) id
  | liveSessions => exact iff_of_true (reads_keep hT trivial) id
  | listenerJoined listener_id session_id language =>
    exact iff_of_true (listenerJoined_keeps hT listener_id session_id language) id
  | listenerLeft listener_id => exact iff_of_true (listenerLeft_keeps hT listener_id) id
  | activeListeners session_id => exact iff_of_true (reads_keep hT trivial) id
  | recordTranscript session_id row =>
    exact ⟨fun hkeeps hover => recordTranscript_overwrites hT hover hkeeps,
      recordTranscript_keeps hT⟩
  | transcript session_id language => exact iff_of_true (reads_keep hT trivial) id

end

open canonical

/-- The keynote's transcript, with one line that its own tenant recorded. -/
def keynoteRecorded : Schema String :=
  let store : SessionStore := ⟨SessionConfig.keynote.tenant⟩
  store.after 1 (store.after 0 .empty (.createSession .keynote true))
    (.recordTranscript SessionConfig.keynote.session_id
      ⟨0, "fr", "good morning", some "bonjour", 0, 1, some 1, some "final", false⟩)

/-- The same line, as another store hands it over. -/
def lineAgain (translated_text : String) : StoreCall :=
  .recordTranscript SessionConfig.keynote.session_id
    ⟨0, "fr", "good morning", some translated_text, 0, 1, some 2, some "final", false⟩

/-- The tenant's own store records the line again. -/
theorem the_keynotes_store_keeps_to_its_tenant :
    KeepsToTenant ⟨SessionConfig.keynote.tenant⟩ "0e984725-c51c-4bf4-9960-e1c80e27aba0" 2
      keynoteRecorded (lineAgain "salut") := by
  apply (a_store_keeps_to_its_tenant_iff (by decide +kernel) _).mpr
  rintro ⟨-, r, hr, -, -, -, htenant, -⟩
  have howner : ∀ r ∈ keynoteRecorded.session_transcripts.rows,
      r.tenant_id = "0e984725-c51c-4bf4-9960-e1c80e27aba0" := by decide +kernel
  exact htenant (howner r hr)

theorem strangersStore_id_ne : "11111111-2222-3333-4444-555555555555" ≠ "" := by
  simp

/-- A store on the same schema, with the id of another tenant. -/
def strangersStore : SessionStore where
  tenant := { SessionConfig.keynote.tenant with
    tenant_id := "11111111-2222-3333-4444-555555555555"
    tenant_id_ne := strangersStore_id_ne }

/-- The stranger's line conflicts with the tenant's, and is written over it. -/
theorem a_strangers_line_is_written_over_the_tenants :
    ¬ KeepsToTenant strangersStore "11111111-2222-3333-4444-555555555555" 2 keynoteRecorded
      (lineAgain "salut") := by
  refine recordTranscript_overwrites (by decide +kernel) ⟨by norm_num, ?_⟩
  decide +kernel

end lad_translate.sessions
