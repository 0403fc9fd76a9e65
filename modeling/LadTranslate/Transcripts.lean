-- The transcript rows (db/sessions.py, `record_transcript`) over every order of
-- the calls of any number of stores. A repeated key rewrites three columns and
-- leaves the rest, so a row is one call's only while the rest does not change.
import LadTranslate.Closing
import LadTranslate.Steps

open machines tables

namespace lad_translate.sessions

open config

section

variable {Uuid : Type}

/-! ## The columns of a row -/

/-- The columns that an upsert leaves: what was said, when, and why it was cut. -/
def TranscriptRow.source (r : TranscriptRow) : String × ℚ × ℚ × Option String :=
  (r.source_text, r.t_audio_start, r.t_audio_end, r.commit_reason)

/-- The columns that an upsert rewrites. -/
def TranscriptRow.rendering (r : TranscriptRow) : Option String × Option ℚ × Bool :=
  (r.translated_text, r.latency_s, r.revised)

/-- The key, the source and the rendering are all that a row holds. -/
theorem row_eq {r r' : StoredTranscript Uuid} (hkey : r.key = r'.key)
    (hsource : r.source = r'.source) (hrendering : r.rendering = r'.rendering) :
    r.toTranscriptRow = r'.toTranscriptRow := by
  obtain ⟨⟨_, _, _, _, _, _, _, _, _⟩, _, _, _⟩ := r
  obtain ⟨⟨_, _, _, _, _, _, _, _, _⟩, _, _, _⟩ := r'
  simp only [StoredTranscript.key, TranscriptRow.source, TranscriptRow.rendering,
    Prod.mk.injEq] at hkey hsource hrendering
  simp only [TranscriptRow.mk.injEq]
  exact ⟨hkey.2.1, hkey.2.2, hsource.1, hrendering.1, hsource.2.1, hsource.2.2.1, hrendering.2.1,
    hsource.2.2.2, hrendering.2.2⟩

variable [DecidableEq Uuid] [UuidText Uuid]

/-! ## The calls that record -/

/-- What an observer of the store notes: the row that a call recorded. -/
def recorded (schema : Schema Uuid) (turn : Turn) (_ : Schema Uuid) : List (StoredTranscript Uuid) :=
  match turn.call with
  | .recordTranscript session_id row =>
    match (SessionStore.uuid session_id : Except StoreError Uuid),
        (turn.store.tenantUuid : Except StoreError Uuid),
        turn.store.recordTranscript schema session_id row with
    | .ok id, .ok tenant_id, .ok _ =>
      if h : row.t_audio_start ≤ row.t_audio_end then
        [{ row with session_id := id, tenant_id, audio_span := h }]
      else []
    | _, _, _ => []
  | _ => []

/-- The rows that the calls recorded, one after the other. -/
def recordings (Uuid : Type) [DecidableEq Uuid] [UuidText Uuid] (turns : List Turn) :
    List (StoredTranscript Uuid) :=
  schemaRuns.history recorded turns

/-- The row that was recorded last under a key. -/
def latest (rows : List (StoredTranscript Uuid)) (key : Uuid × Int × String) :
    Option TranscriptRow :=
  (rows.reverse.find? (·.key = key)).map (·.toTranscriptRow)

/-- In every state that the calls reach, each row is the one that the latest call
for its session, chunk and language recorded. -/
def WholeRows (Uuid : Type) [DecidableEq Uuid] [UuidText Uuid] (turns : List Turn) : Prop :=
  ∀ before rest (s : Schema Uuid), turns = before ++ rest → schemaRuns.run before = some s →
    ∀ r ∈ s.session_transcripts.rows,
      latest (recordings Uuid before) r.key = some r.toTranscriptRow

variable {schema schema' : Schema Uuid} {turn : Turn}

/-- Only `record_transcript` writes to the transcripts. -/
theorem transcripts_kept {answer : Answer Uuid}
    (h : turn.store.call turn.now schema turn.call = .ok (schema', answer))
    (hnot : ∀ session_id row, turn.call ≠ .recordTranscript session_id row) :
    schema'.session_transcripts = schema.session_transcripts := by
  cases called_of_ok h with
  | createSession _ _ _ _ hok =>
    obtain ⟨_, _, -, -, -, -, hsame⟩ := SessionStore.createSession_spec hok
    exact hsame
  | markLive _ _ hok =>
    obtain ⟨_, _, -, -, -, -, hsame⟩ := SessionStore.updateStatus_spec hok
    exact hsame
  | endSession _ _ _ _ hok =>
    obtain ⟨_, _, _, -, -, -, -, -, hsame⟩ := SessionStore.endSession_spec hok
    exact hsame
  | listenerJoined _ _ _ _ _ hok =>
    obtain ⟨_, -, -, -, hsame⟩ := SessionStore.listenerJoined_spec hok
    exact hsame
  | listenerLeft _ _ hok =>
    obtain ⟨_, _, -, -, -, hsame⟩ := SessionStore.listenerLeft_spec hok
    exact hsame
  | recordTranscript session_id row hcall => exact absurd hcall (hnot session_id row)
  | reads _ hsame => rw [hsame]

/-- What a `record_transcript` that goes through notes, and does. -/
theorem recorded_of_ok {session_id : String} {row : TranscriptRow}
    (hcall : turn.call = .recordTranscript session_id row)
    (hok : turn.store.recordTranscript schema session_id row = .ok schema') (t : Schema Uuid) :
    ∃ new : StoredTranscript Uuid, recorded schema turn t = [new] ∧
      schema.upsertTranscript new new.rewrite (fun _ => rfl) = .ok schema' := by
  obtain ⟨id, T, hspan, hid, hT, hupsert⟩ := SessionStore.recordTranscript_spec.mp hok
  refine ⟨_, ?_, hupsert⟩
  rw [recorded, hcall]
  simp only [hid, hT, hok]
  rw [dif_pos hspan]

/-- A call records a row by an upsert, or leaves the transcripts as they were. -/
theorem recorded_cases (hstep : schemaRuns.step schema turn = some schema') :
    (recorded schema turn schema' = [] ∧
      schema'.session_transcripts = schema.session_transcripts) ∨
    ∃ row, recorded schema turn schema' = [row] ∧
      schema.upsertTranscript row row.rewrite (fun _ => rfl) = .ok schema' := by
  cases hstep
  unfold SessionStore.after
  by_cases hrecord : ∃ session_id row, turn.call = .recordTranscript session_id row
  · obtain ⟨session_id, row, hrecord⟩ := hrecord
    cases hok : turn.store.recordTranscript schema session_id row with
    | error e =>
      left
      refine ⟨?_, by rw [hrecord, SessionStore.call, hok]; rfl⟩
      rw [recorded, hrecord]
      simp only
      split
      · rename_i hok'
        rw [hok] at hok'
        cases hok'
      · rfl
    | ok schema' =>
      right
      rw [hrecord, SessionStore.call, hok]
      exact recorded_of_ok hrecord hok _
  · left
    simp only [not_exists] at hrecord
    refine ⟨?_, ?_⟩
    · unfold recorded
      split
      · rename_i _ session_id row hcall
        exact absurd hcall (hrecord session_id row)
      · rfl
    · cases hcall : turn.store.call turn.now schema turn.call with
      | error e => rfl
      | ok answer => exact transcripts_kept hcall hrecord

/-! ## The rows and the calls -/

/-- The source of a row is that of the first call for its key, and the rendering
that of the last one. -/
structure Layered (schema : Schema Uuid) (recorded : List (StoredTranscript Uuid)) : Prop where
  first : ∀ r ∈ schema.session_transcripts.rows, ∃ row,
    recorded.find? (·.key = r.key) = some row ∧ r.source = row.source
  last : ∀ r ∈ schema.session_transcripts.rows, ∃ row,
    recorded.reverse.find? (·.key = r.key) = some row ∧ r.rendering = row.rendering
  stored : ∀ row ∈ recorded, row.key ∈ schema.session_transcripts.rows.map StoredTranscript.key

variable {rows : List (StoredTranscript Uuid)}

omit [UuidText Uuid] in
/-- A repeated key keeps the source of its row and takes the new rendering. -/
theorem Layered.rewrite (h : Layered schema rows) {row : StoredTranscript Uuid}
    (hmem : row.key ∈ schema.session_transcripts.rows.map StoredTranscript.key)
    (hrows : List.Forall₂ (Comes (fun r => r.key = row.key)
        fun r => (.ok (row.rewrite r) : Except StoreError _))
      schema.session_transcripts.rows schema'.session_transcripts.rows) :
    Layered schema' (rows ++ [row]) where
  first r' hr' := by
    obtain ⟨r, hr, hcomes⟩ := mem_change hrows hr'
    obtain ⟨first, hfirst, hsource⟩ := h.first r hr
    rcases hcomes with ⟨-, hf⟩ | ⟨-, rfl⟩
    · cases hf
      refine ⟨first, ?_, hsource⟩
      exact List.find?_append.trans (by rw [show (row.rewrite r).key = r.key from rfl, hfirst]; rfl)
    · exact ⟨first, by rw [List.find?_append, hfirst]; rfl, hsource⟩
  last r' hr' := by
    obtain ⟨r, hr, hcomes⟩ := mem_change hrows hr'
    rw [List.reverse_append, List.reverse_singleton, List.singleton_append]
    rcases hcomes with ⟨hpick, hf⟩ | ⟨hpick, rfl⟩
    · cases hf
      refine ⟨row, List.find?_cons_of_pos ?_, rfl⟩
      rw [decide_eq_true_eq] at hpick ⊢
      exact hpick.symm
    · obtain ⟨last, hlast, hrendering⟩ := h.last r' hr
      refine ⟨last, ?_, hrendering⟩
      rw [List.find?_cons_of_neg, hlast]
      rw [decide_eq_false_iff_not] at hpick
      simpa using fun heq => hpick heq.symm
  stored a ha := by
    rw [map_change hrows fun r r' hf => by cases hf; rfl]
    rcases List.mem_append.mp ha with ha | ha
    · exact h.stored a ha
    · rw [List.mem_singleton.mp ha]
      exact hmem

omit [UuidText Uuid] in
/-- A new key has the source and the rendering of its call. -/
theorem Layered.append (h : Layered schema rows) {row : StoredTranscript Uuid}
    (hnew : row.key ∉ schema.session_transcripts.rows.map StoredTranscript.key)
    (hrows : schema'.session_transcripts.rows = schema.session_transcripts.rows ++ [row]) :
    Layered schema' (rows ++ [row]) where
  first r hr := by
    rw [hrows, List.mem_append, List.mem_singleton] at hr
    rcases hr with hr | rfl
    · obtain ⟨first, hfirst, hsource⟩ := h.first r hr
      exact ⟨first, by rw [List.find?_append, hfirst]; rfl, hsource⟩
    · have hnone : rows.find? (·.key = r.key) = none := by
        rw [List.find?_eq_none]
        intro a ha hkey
        exact hnew (of_decide_eq_true hkey ▸ h.stored a ha)
      refine ⟨r, ?_, rfl⟩
      rw [List.find?_append, hnone]
      simp
  last r hr := by
    rw [List.reverse_append, List.reverse_singleton, List.singleton_append]
    rw [hrows, List.mem_append, List.mem_singleton] at hr
    rcases hr with hr | rfl
    · obtain ⟨last, hlast, hrendering⟩ := h.last r hr
      refine ⟨last, ?_, hrendering⟩
      rw [List.find?_cons_of_neg, hlast]
      rw [decide_eq_true_eq]
      intro heq
      exact hnew (List.mem_map.mpr ⟨r, hr, heq.symm⟩)
    · exact ⟨r, List.find?_cons_of_pos (by simp), rfl⟩
  stored a ha := by
    rw [hrows, List.map_append]
    rcases List.mem_append.mp ha with ha | ha
    · exact List.mem_append_left _ (h.stored a ha)
    · rw [List.mem_singleton.mp ha]
      exact List.mem_append_right _ List.mem_cons_self

theorem layered_step (h : Layered schema rows) (hstep : schemaRuns.step schema turn = some schema') :
    Layered schema' (rows ++ recorded schema turn schema') := by
  rcases recorded_cases hstep with ⟨hnone, hsame⟩ | ⟨row, hrow, hupsert⟩
  · rw [hnone, List.append_nil]
    exact ⟨hsame ▸ h.first, hsame ▸ h.last, hsame ▸ h.stored⟩
  · rw [hrow]
    obtain ⟨⟨hmem, hrows⟩ | ⟨hnew, hrows⟩, -⟩ := Schema.upsertTranscript_eq_ok hupsert
    · exact h.rewrite hmem hrows
    · exact h.append hnew hrows

theorem recordings_snoc {turns : List Turn} (hrun : schemaRuns.run turns = some schema)
    (hstep : schemaRuns.step schema turn = some schema') : recordings Uuid (turns ++ [turn]) =
      recordings Uuid turns ++ recorded schema turn schema' :=
  schemaRuns.history_snoc recorded hrun hstep

/-- The rows of a reached state have their sources from the first calls and
their renderings from the last. -/
theorem layered_of_run {turns : List Turn} (h : schemaRuns.run turns = some schema) :
    Layered schema (recordings Uuid turns) := by
  refine schemaRuns.run_induction (P := fun turns (s : Schema Uuid) =>
    Layered s (recordings Uuid turns)) ?_ ?_ h
  · refine ⟨?_, ?_, ?_⟩
    · intro r hr
      cases hr
    · intro r hr
      cases hr
    · intro row hrow
      cases hrow
  · intro turns s turn t hrun ih hstep
    rw [recordings_snoc hrun hstep]
    exact layered_step ih hstep

/-! ## The law of the rows -/

/-- Every list of calls is a run. -/
theorem schemaRuns_total (Uuid : Type) [DecidableEq Uuid] [UuidText Uuid] (turns : List Turn) :
    ∃ s : Schema Uuid, schemaRuns.run turns = some s := by
  obtain ⟨s, hrun, -⟩ := schemaRuns.run_total (P := fun _ : Schema Uuid => True) trivial
    (fun _ _ _ => ⟨_, rfl, trivial⟩) turns
  exact ⟨s, hrun⟩

/-- Where every row is its latest call's, each call has the source that the first
call for its key had. -/
theorem source_of_first {turns : List Turn} (hwhole : WholeRows Uuid turns) :
    ∀ a ∈ recordings Uuid turns, ∃ first,
      (recordings Uuid turns).find? (·.key = a.key) = some first ∧
        a.source = first.source := by
  induction turns using List.reverseRecOn with
  | nil =>
    intro a ha
    cases ha
  | append_singleton turns turn ih =>
    have hbefore : WholeRows Uuid turns := fun before rest s hsplit =>
      hwhole before (rest ++ [turn]) s (by rw [hsplit, List.append_assoc])
    obtain ⟨s, hrun⟩ := schemaRuns_total Uuid turns
    obtain ⟨t, hstep⟩ : ∃ t, schemaRuns.step s turn = some t := ⟨_, rfl⟩
    have hend := schemaRuns.run_snoc_some.mpr ⟨s, hrun, hstep⟩
    have hlayered := layered_of_run hend
    have hlatest := hwhole (turns ++ [turn]) [] t (by simp) hend
    rw [recordings_snoc hrun hstep] at hlayered hlatest ⊢
    intro a ha
    rcases List.mem_append.mp ha with ha' | ha'
    · obtain ⟨first, hfirst, hsource⟩ := ih hbefore a ha'
      exact ⟨first, by rw [List.find?_append, hfirst]; rfl, hsource⟩
    · -- the row of the call's key is the call's own now, and still has its first source
      obtain ⟨r, hr, hkey⟩ := List.mem_map.mp (hlayered.stored a ha)
      obtain ⟨first, hfirst, hsource⟩ := hlayered.first r hr
      have hnote : recorded s turn t = [a] := by
        rcases recorded_cases hstep with ⟨hnone, -⟩ | ⟨row, hrow, -⟩
        · rw [hnone] at ha'
          cases ha'
        · rw [hrow, List.mem_singleton] at ha'
          rw [hrow, ha']
      have hown := hlatest r hr
      rw [latest, hnote, List.reverse_append, List.reverse_singleton, List.singleton_append,
        List.find?_cons_of_pos (by simpa using hkey.symm), Option.map_some,
        Option.some.injEq] at hown
      rw [hkey] at hfirst
      exact ⟨first, hfirst, by rw [hown]; exact hsource⟩

/-- In whatever order the stores make their calls, every stored row is what the
latest call for its key recorded exactly when all the calls for one key record
the same source text, span and reason. -/
theorem every_row_is_its_latest_calls_iff (turns : List Turn) :
    WholeRows Uuid turns ↔ ∀ a ∈ recordings Uuid turns, ∀ b ∈ recordings Uuid turns,
      a.key = b.key → a.source = b.source := by
  constructor
  · intro hwhole a ha b hb hkey
    obtain ⟨first, hfirst, hsource⟩ := source_of_first hwhole a ha
    obtain ⟨first', hfirst', hsource'⟩ := source_of_first hwhole b hb
    rw [hkey, hfirst', Option.some.injEq] at hfirst
    rw [hsource, hsource', hfirst]
  · intro hsame before rest s hsplit hrun r hr
    obtain ⟨first, hfirst, hsource⟩ := (layered_of_run hrun).first r hr
    obtain ⟨last, hlast, hrendering⟩ := (layered_of_run hrun).last r hr
    have hmem : ∀ a ∈ recordings Uuid before, a ∈ recordings Uuid turns := by
      intro a ha
      rw [recordings, hsplit, Machine.history, schemaRuns.historyFrom_append recorded hrun]
      exact List.mem_append_left _ ha
    have hfirst' := List.mem_of_find?_eq_some hfirst
    have hlast' := List.mem_reverse.mp (List.mem_of_find?_eq_some hlast)
    have hfirstkey : first.key = r.key := by simpa using List.find?_some hfirst
    have hlastkey : last.key = r.key := by simpa using List.find?_some hlast
    rw [latest, hlast, Option.map_some, Option.some.injEq]
    refine row_eq hlastkey ?_ hrendering.symm
    rw [hsource]
    exact hsame last (hmem last hlast') first (hmem first hfirst') (hlastkey.trans hfirstkey.symm)

end

open canonical phrase_chunker.ascii
open phrase_chunker pipeline

/-- The first chunk that a service that has just started makes of a sentence. -/
def firstChunk (text : String) : Option PhraseChunk :=
  ((talks {} (by decide)).run [.feed (.spoken text true 1)]).bind (·.emitted.head?)

/-- A service records the first chunk of a sentence in the keynote's session. -/
def firstLine (now : ℚ) (text translation : String) : List Turn :=
  (firstChunk text).toList.map fun chunk =>
    ⟨⟨SessionConfig.keynote.tenant⟩, now, .recordTranscript SessionConfig.keynote.session_id
      (rowOf "fr" (chunk, translation) (some 1))⟩

/-- The service starts, publishes, retries, and is started again on the session. -/
def restartedService : List Turn :=
  ⟨⟨SessionConfig.keynote.tenant⟩, 0, .createSession .keynote true⟩ ::
    (firstLine 1 "good morning." "bonjour." ++ firstLine 2 "good morning." "bon matin." ++
      firstLine 60 "welcome back." "bon retour.")

/-- The key of the service's first chunk, each time it is started. -/
def firstKey : String × Int × String := (SessionConfig.keynote.session_id, 0, "fr")

theorem restartedService_stored :
    ((schemaRuns.run restartedService : Option (Schema String)).map fun s =>
      s.session_transcripts.rows.map fun r => (r.key, r.source_text, r.translated_text)) =
        some [(firstKey, "good morning.", some "bon retour.")] := by
  decide +kernel

theorem restartedService_recorded :
    (latest (recordings String restartedService) firstKey).map
      (fun row => (row.source_text, row.translated_text)) =
        some ("welcome back.", some "bon retour.") := by
  decide +kernel

/-- The row has the words of the first chunk and the translation of the other. -/
theorem a_restarted_service_mixes_two_chunks : ¬ WholeRows String restartedService := by
  intro hwhole
  obtain ⟨s, hrun, hrows⟩ := Option.map_eq_some_iff.mp restartedService_stored
  obtain ⟨r, hr, hrow⟩ : ∃ r ∈ s.session_transcripts.rows,
      (r.key, r.source_text, r.translated_text) = (firstKey, "good morning.", some "bon retour.") := by
    rw [← List.mem_map, hrows]
    exact List.mem_singleton.mpr rfl
  simp only [Prod.mk.injEq] at hrow
  have hlatest := hwhole restartedService [] s (by simp) hrun r hr
  have hrecorded := restartedService_recorded
  rw [hrow.1] at hlatest
  rw [hlatest, Option.map_some, Option.some.injEq, Prod.mk.injEq, hrow.2.1] at hrecorded
  exact absurd hrecorded.1 (by decide)

end lad_translate.sessions
