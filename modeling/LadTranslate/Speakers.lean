-- The speakers of a session (api/join.py, `_issue_speaker`, and api/rooms.py):
-- requests that are inspected and then answered, in any order among themselves
-- and among what the holders of the tokens do in the room.
import LadTranslate.Languages
import LadTranslate.Machines

open fallible machines

namespace lad_translate.api

open config sessions

/-! ## The inspector -/

/-- `TRACK_PREFIX`. -/
def TRACK_PREFIX : String := "lang-"

/-- What the inspector makes of the name of a track. -/
def publishedAs (track : String) : Option String :=
  if TRACK_PREFIX.toList.isPrefixOf track.toList then
    some (String.ofList (track.toList.drop TRACK_PREFIX.length))
  else if track = sourceTrackName then some sourceTrackName
  else none

/-- `published_languages`, when LiveKit answers with the tracks of each participant. -/
def publishedLanguages (participants : List (List String)) : List String :=
  participants.flatten.filterMap publishedAs

theorem source_mem_publishedLanguages {participants : List (List String)}
    (h : [sourceTrackName] ∈ participants) : sourceTrackName ∈ publishedLanguages participants := by
  have hsource : publishedAs sourceTrackName = some sourceTrackName := by decide +kernel
  have hmem := List.mem_flatten.mpr ⟨_, h, List.mem_singleton_self sourceTrackName⟩
  exact List.mem_filterMap.mpr ⟨_, hmem, hsource⟩

/-! ## The requests to one session -/

variable {Uuid : Type} [DecidableEq Uuid] [UuidText Uuid]

def App.Endpoint.Speaks : App.Endpoint → Prop
  | .speak _ | .roomSpeak _ => True
  | .join _ _ | .roomJoin _ _ => False

section

variable (app : App) (db : Database Uuid) (session : SessionRow Uuid)

/-- A request to speak in the session, by its id or by its room. -/
structure SpeakRequest where
  endpoint : App.Endpoint
  request : Request
  speaks : endpoint.Speaks
  found : ∃ store, app.load db endpoint = .ok (store, session)

/-- A request that was inspected and is still to be answered: what the inspector
says, and whose tokens published then. -/
structure Inspection where
  id : Nat
  asked : SpeakRequest app db session
  published : List String
  publishing : List Nat

/-- The session's room: the tracks of its other participants, the tokens whose
holders have not left, and the ones of them that publish. -/
structure Stage where
  others : List (List String) := []
  holders : List Nat := []
  publishing : List Nat := []
  asked : Nat := 0
  inspected : List (Inspection app db session) := []

inductive Event
  | inspect (asked : SpeakRequest app db session)
  | answer (id : Nat)
  | publish (id : Nat)
  | leave (id : Nat)
  | others (tracks : List (List String))

end

variable {app : App} {db : Database Uuid} {session : SessionRow Uuid}

/-- The answer to a request, by what the inspector said. -/
def Inspection.answer (i : Inspection app db session) :
    Except HttpException (Database Uuid × (ListenerPass ⊕ SpeakerPass)) :=
  App.post { app with published_languages := fun _ => i.published } db i.asked.request
    i.asked.endpoint

namespace Stage

/-- The tracks of each participant. -/
def participants (s : Stage app db session) : List (List String) :=
  s.others ++ s.publishing.map fun _ => [sourceTrackName]

def step (s : Stage app db session) : Event app db session → Option (Stage app db session)
  | .inspect asked => some { s with
      asked := s.asked + 1
      inspected := s.inspected ++
        [⟨s.asked, asked, publishedLanguages s.participants, s.publishing⟩] }
  | .answer id => do
    let i ← s.inspected.find? (·.id = id)
    let inspected := s.inspected.filter (·.id ≠ id)
    match i.answer with
    | .ok _ => some { s with inspected, holders := s.holders ++ [id] }
    | .error _ => some { s with inspected }
  | .publish id =>
    if id ∈ s.holders then some { s with publishing := s.publishing ++ [id] } else none
  | .leave id =>
    if id ∈ s.holders then some { s with
      holders := s.holders.filter (· ≠ id), publishing := s.publishing.filter (· ≠ id) }
    else none
  | .others tracks => some { s with others := tracks }

/-- The runs of the session. -/
def runs (app : App) (db : Database Uuid) (session : SessionRow Uuid) :
    Machine (Stage app db session) (Event app db session) :=
  ⟨{}, step⟩

end Stage

/-! ## The answer -/

/-- A request to speak is granted when there is an issuer, the session's status
admits it and the inspector sees no source track. -/
theorem App.post_speak_iff {store : SessionStore} {endpoint : App.Endpoint}
    (hspeaks : endpoint.Speaks) (hload : app.load db endpoint = .ok (store, session))
    (request : Request) :
    (∃ given, app.post db request endpoint = .ok given) ↔
      app.issuer.isSome = true ∧ Admits session.status ∧
        sourceTrackName ∉ app.published_languages session.room_name := by
  unfold App.post
  rw [hload]
  cases hissuer : app.issuer with
  | none =>
    rw [App.clientUrl_error hissuer]
    simp [bind, Except.bind]
  | some issuer =>
    obtain ⟨url, hurl⟩ := App.clientUrl_ok (by rw [hissuer]; rfl) request
    have hissue : (∃ pass, app.issueSpeaker session url = .ok pass) ↔
        Admits session.status ∧ sourceTrackName ∉ app.published_languages session.room_name := by
      unfold App.issueSpeaker
      rw [hissuer]
      by_cases hstatus : Admits session.status
      · by_cases hsource : sourceTrackName ∈ app.published_languages session.room_name
        · simp [hstatus, hsource]
        · simp [hstatus, hsource]
      · simp [hstatus]
    rw [hurl, ← hissue]
    cases endpoint with
    | join session_id language | roomJoin room_name language => cases hspeaks
    | speak session_id | roomSpeak room_name =>
      simp only [bind, Except.bind, pure, Except.pure, Option.isSome_some, true_and]
      cases app.issueSpeaker session url <;> simp

/-- The service gives tokens for the session. -/
def Gives (app : App) (session : SessionRow Uuid) : Prop :=
  app.issuer.isSome = true ∧ Admits session.status

/-- A request is granted when the inspector saw no source track. -/
theorem Inspection.answer_ok_iff (i : Inspection app db session) :
    (∃ given, i.answer = .ok given) ↔ Gives app session ∧ sourceTrackName ∉ i.published := by
  obtain ⟨store, hload⟩ := i.asked.found
  have hload' : App.load { app with published_languages := fun _ => i.published } db
      i.asked.endpoint = .ok (store, session) := by
    rw [← hload]
    cases i.asked.endpoint <;> rfl
  unfold Inspection.answer Gives
  rw [App.post_speak_iff i.asked.speaks hload', and_assoc]

theorem Inspection.answer_error_iff (i : Inspection app db session) :
    (∃ e, i.answer = .error e) ↔ ¬ (Gives app session ∧ sourceTrackName ∉ i.published) := by
  rw [← i.answer_ok_iff]
  cases i.answer <;> simp

/-! ## The runs -/

namespace Stage

variable {s t : Stage app db session} {id : Nat}

/-- The request that waits for an answer under the id. -/
def waiting (s : Stage app db session) (id : Nat) : Option (Inspection app db session) :=
  s.inspected.find? (·.id = id)

/-- An answer takes its request away, and adds a token when it is granted. -/
theorem answer_cases (h : s.step (.answer id) = some t) :
    ∃ i, s.waiting id = some i ∧ t.inspected = s.inspected.filter (·.id ≠ id) ∧
      (((∃ given, i.answer = .ok given) ∧ t.holders = s.holders ++ [id]) ∨
        ((∃ e, i.answer = .error e) ∧ t.holders = s.holders)) := by
  simp only [step, Option.bind_eq_bind, Option.bind_eq_some_iff] at h
  obtain ⟨i, hwaiting, h⟩ := h
  refine ⟨i, hwaiting, ?_⟩
  cases hanswer : i.answer with
  | ok given =>
    rw [hanswer] at h
    cases h
    exact ⟨rfl, .inl ⟨⟨given, rfl⟩, rfl⟩⟩
  | error e =>
    rw [hanswer] at h
    cases h
    exact ⟨rfl, .inr ⟨⟨e, rfl⟩, rfl⟩⟩

/-- What every reached state keeps: tokens are given only by a service that gives
some, and the inspector has seen the track of everyone who published then. -/
structure Sound (s : Stage app db session) : Prop where
  given : s.holders ≠ [] → Gives app session
  truthful : ∀ i ∈ s.inspected, i.publishing ≠ [] → sourceTrackName ∈ i.published

theorem sound_start : Sound ({} : Stage app db session) :=
  ⟨fun h => absurd rfl h, fun _ h => absurd h List.not_mem_nil⟩

theorem sound_step {e : Event app db session} (hs : Sound s) (h : s.step e = some t) : Sound t := by
  cases e with
  | inspect asked =>
    cases h
    refine ⟨hs.given, ?_⟩
    intro i hi hpublishing
    rcases List.mem_append.mp hi with hi | hi
    · exact hs.truthful i hi hpublishing
    · obtain rfl := List.mem_singleton.mp hi
      obtain ⟨id, hid⟩ := List.exists_mem_of_ne_nil _ hpublishing
      apply source_mem_publishedLanguages
      exact List.mem_append_right _ (List.mem_map.mpr ⟨id, hid, rfl⟩)
  | answer id =>
    obtain ⟨i, -, hinspected, hanswer⟩ := answer_cases h
    refine ⟨?_, ?_⟩
    · rcases hanswer with ⟨hgiven, -⟩ | ⟨-, hholders⟩
      · exact fun _ => (i.answer_ok_iff.mp hgiven).1
      · rw [hholders]
        exact hs.given
    · rw [hinspected]
      exact fun j hj => hs.truthful j (List.mem_of_mem_filter hj)
  | publish id =>
    simp only [step] at h
    split at h
    · cases h
      exact ⟨hs.given, hs.truthful⟩
    · cases h
  | leave id =>
    simp only [step] at h
    split at h
    · rename_i hmem
      cases h
      exact ⟨fun _ => hs.given (List.ne_nil_of_mem hmem), hs.truthful⟩
    · cases h
  | others tracks =>
    cases h
    exact ⟨hs.given, hs.truthful⟩

theorem sound_run {events : List (Event app db session)}
    (h : (runs app db session).run events = some s) : Sound s :=
  (runs app db session).invariant (P := Sound) sound_start
    (fun _ _ _ hs hstep => sound_step hs hstep) ⟨events, h⟩

/-- Only an answer adds a token. -/
theorem holders_step {e : Event app db session} (hnot : ∀ id, e ≠ .answer id)
    (h : s.step e = some t) : t.holders.length ≤ s.holders.length := by
  cases e with
  | inspect asked =>
    cases h
    exact le_rfl
  | answer id => exact absurd rfl (hnot id)
  | publish id =>
    simp only [step] at h
    split at h
    · cases h
      exact le_rfl
    · cases h
  | leave id =>
    simp only [step] at h
    split at h
    · cases h
      exact List.length_filter_le _ _
    · cases h
  | others tracks =>
    cases h
    exact le_rfl

/-! ## One speaker -/

/-- The request gets no token. -/
def Refuses (s : Stage app db session) (id : Nat) : Prop :=
  ∀ i, s.waiting id = some i → ∃ e, i.answer = .error e

/-- The inspection of the request saw a source track, or everyone who holds a
token now was publishing when it looked. -/
def Seen (s : Stage app db session) (id : Nat) : Prop :=
  ∀ i, s.waiting id = some i →
    sourceTrackName ∈ i.published ∨ ∀ holder ∈ s.holders, holder ∈ i.publishing

/-- A request that saw everyone is refused while someone holds a token. -/
theorem refuses_of_seen (hs : Sound s) (hseen : Seen s id) (hheld : s.holders ≠ []) :
    Refuses s id := by
  intro i hwaiting
  apply i.answer_error_iff.mpr
  rintro ⟨-, hnot⟩
  rcases hseen i hwaiting with hsource | hall
  · exact hnot hsource
  · obtain ⟨holder, hholder⟩ := List.exists_mem_of_ne_nil _ hheld
    exact hnot (hs.truthful i (List.mem_of_find?_eq_some hwaiting)
      (List.ne_nil_of_mem (hall holder hholder)))

/-- Where everyone who holds a token was seen, a step leaves one token at most. -/
theorem one_token_step {e : Event app db session} (hs : Sound s)
    (hseen : ∀ id, e = .answer id → Seen s id) (hone : s.holders.length ≤ 1)
    (h : s.step e = some t) : t.holders.length ≤ 1 := by
  by_cases hanswer : ∃ id, e = .answer id
  · obtain ⟨id, rfl⟩ := hanswer
    obtain ⟨i, hwaiting, -, ⟨hgiven, hholders⟩ | ⟨-, hholders⟩⟩ := answer_cases h
    · by_cases hheld : s.holders = []
      · rw [hholders, hheld]
        exact le_rfl
      · have hrefused := refuses_of_seen hs (hseen id rfl) hheld i hwaiting
        exact absurd (i.answer_ok_iff.mp hgiven) (i.answer_error_iff.mp hrefused)
    · rw [hholders]
      exact hone
  · exact (holders_step (not_exists.mp hanswer) h).trans hone

/-- A request that is refused whenever someone holds a token saw everyone. -/
theorem seen_of_refuses (hs : Sound s) (h : s.holders ≠ [] → Refuses s id) : Seen s id := by
  intro i hwaiting
  by_cases hheld : s.holders = []
  · rw [hheld]
    exact .inr fun _ hmem => absurd hmem List.not_mem_nil
  · by_cases hsource : sourceTrackName ∈ i.published
    · exact .inl hsource
    · have hrefused := i.answer_error_iff.mp (h hheld i hwaiting)
      exact absurd ⟨hs.given hheld, hsource⟩ hrefused

end Stage

/-- At every time of a run there is at most one token whose holder has not left,
and while there is one, every request that is answered is refused. -/
def OneSpeaker (events : List (Event app db session)) : Prop :=
  ∀ before after s, events = before ++ after → (Stage.runs app db session).run before = some s →
    s.holders.length ≤ 1 ∧
      ∀ id rest, after = .answer id :: rest → s.holders ≠ [] → s.Refuses id

/-- Two people are never admitted exactly when each request that is answered was
inspected after everyone who holds a token then was publishing. -/
theorem one_speaker_iff_every_holder_was_seen (events : List (Event app db session)) :
    OneSpeaker events ↔ ∀ before id after s, events = before ++ .answer id :: after →
      (Stage.runs app db session).run before = some s → s.Seen id := by
  constructor
  · intro hone before id after s hevents hrun
    exact Stage.seen_of_refuses (Stage.sound_run hrun)
      ((hone before (.answer id :: after) s hevents hrun).2 id after rfl)
  · intro hseen before after s hevents hrun
    refine ⟨?_, ?_⟩
    · induction before using List.reverseRecOn generalizing after s with
      | nil =>
        cases hrun
        exact Nat.zero_le 1
      | append_singleton before e ih =>
        obtain ⟨u, hu, hstep⟩ := (Stage.runs app db session).run_snoc_some.mp hrun
        rw [List.append_assoc, List.singleton_append] at hevents
        apply Stage.one_token_step (Stage.sound_run hu) ?_ (ih (e :: after) u hevents hu) hstep
        rintro id rfl
        exact hseen before id after u hevents hu
    · intro id rest hafter hheld
      subst hafter
      exact Stage.refuses_of_seen (Stage.sound_run hrun) (hseen before id rest s hevents hrun) hheld

open canonical

/-- A request to speak in the keynote, by its id. -/
def speakRequest (request : Request) :
    SpeakRequest venue (createdIn .keynote) (keynoteRow .keynote) where
  endpoint := .speak SessionConfig.keynote.session_id
  request := request
  speaks := trivial
  found := ⟨_, venue_finds .keynote⟩

/-- One after the other, two requests are granted before anyone publishes. -/
def twoSpeakers : List (Event venue (createdIn .keynote) (keynoteRow .keynote)) :=
  [.inspect (speakRequest phone), .answer 0, .inspect (speakRequest phone), .answer 1]

theorem twoSpeakers_evaluated :
    ((Stage.runs venue (createdIn .keynote) (keynoteRow .keynote)).run twoSpeakers).map
      (·.holders) = some [0, 1] := by
  decide +kernel

/-- Both have a token, and either can publish. -/
theorem two_people_are_admitted : ¬ OneSpeaker twoSpeakers := by
  intro hone
  obtain ⟨s, hrun, hholders⟩ := Option.map_eq_some_iff.mp twoSpeakers_evaluated
  have hle := (hone twoSpeakers [] s (List.append_nil _).symm hrun).1
  rw [hholders] at hle
  exact absurd hle (by decide)

end lad_translate.api
