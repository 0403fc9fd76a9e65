-- A session on the air: the machine of the session and its room, as one. The
-- depth that a worker observes is the queue of the room, and what a worker
-- pushes goes into it. The laws bound that queue over every run, and say what
-- the counts of the room are.
import LadTranslate.Dispatch
import LadTranslate.Reservoirs
import LadTranslate.Room
import LadTranslate.Steps

open machines reservoirs

namespace lad_translate.pipeline

open phrase_chunker config drift room

/-- A session with its room. The last field is a history: for each language,
what its queue holds, and how much audio its phrases had. -/
structure OnAir (sdk : AudioSdk Raised) where
  session : Session
  room : TranslationRoom sdk
  bouts : String → Reservoir

/-- What goes on: the room publishes, a worker reads the queue of its language,
a worker has the room take a block, time passes for the queue of a language, or
another event of the session. -/
inductive AirEvent (sdk : AudioSdk Raised)
  | publish (refusal : String → Option Raised)
  | took (language : String)
  | push (language : String) (turn : sdk.Turn) (now : ℚ)
  | plays (language : String) (turn : sdk.Turn)
  | other (event : Event)

/-- The event is one of the room's own. -/
def Event.asksRoom : Event → Bool
  | .main (.published _) => true
  | .worker _ (.took _) => true
  | .worker _ (.pushed _) => true
  | _ => false

/-- What a worker gets from `push`. -/
def pushResult (now : ℚ) : Option (PushError Raised) → Except Raised ℚ
  | none => .ok now
  | some (.keyError text) => .error (.exception ("KeyError: " ++ reprText text) true)
  | some (.valueError text) => .error (.exception ("ValueError: " ++ text) false)
  | some (.sdk raised) => .error raised

/-- The seconds that `push` hands to the SDK. -/
def handed (frame : RtcFrame) : Option (PushError Raised) → ℚ
  | none | some (.sdk _) => frame.seconds
  | some _ => 0

namespace OnAir

variable {sdk : AudioSdk Raised}

/-- The room changed, and the histories follow its queues. -/
def follow (a : OnAir sdk) (session : Session) (room : TranslationRoom sdk) : OnAir sdk where
  session := session
  room := room
  bouts l := (a.bouts l).runsDown (room.queueDepth l)

/-- A phrase of a language begins. -/
def begins (a : OnAir sdk) (language : String) : OnAir sdk :=
  { a with bouts := Function.update a.bouts language (a.bouts language).begins }

/-- A block of a phrase was handed to the room. -/
def fills (a : OnAir sdk) (language : String) (room : TranslationRoom sdk) (seconds : ℚ) :
    OnAir sdk :=
  { a with
    room
    bouts := Function.update a.bouts language
      ((a.bouts language).fills (room.queueDepth language) seconds) }

/-- A worker has the room take the block that it waits with. -/
def pushStep [Unicode] (setup : Setup) (a : OnAir sdk) (language : String) (turn : sdk.Turn)
    (now : ℚ) : Option (OnAir sdk) :=
  match (a.session.workers language).map Worker.pc with
  | some (.pushing _ _ speech) =>
    match a.room.push turn language speech.pcm speech.sample_rate with
    | none => none
    | some (room, error) =>
      ((sessionRuns setup).step a.session
        (.worker language (.pushed (pushResult now error)))).map fun session =>
          { a with session }.fills language room
            (handed (a.room.frameOf speech.pcm speech.sample_rate) error)
  | _ => none

/-- The machine of a session on the air. -/
def step [Unicode] (setup : Setup) (a : OnAir sdk) : AirEvent sdk → Option (OnAir sdk)
  | .publish refusal =>
    let (room, raised) := a.room.publishLanguages refusal setup.config.targetCodes
    ((sessionRuns setup).step a.session (.main (.published raised))).map fun session =>
      a.follow session room
  | .took language =>
    ((sessionRuns setup).step a.session
      (.worker language (.took (.ok (a.room.queueDepth language))))).map fun session =>
        { a with session }.begins language
  | .push language turn now => a.pushStep setup language turn now
  | .plays language turn => some (a.follow a.session (a.room.plays turn language))
  | .other event =>
    if event.asksRoom then none
    else ((sessionRuns setup).step a.session event).map fun session =>
      -- the last of `_shutdown` closes the room
      a.follow session (if session.closed = a.session.closed then a.room else a.room.close)

end OnAir

variable {sdk : AudioSdk Raised}

/-- A session on the air, in a room without tracks. -/
def onAir [Unicode] (setup : Setup) (room : TranslationRoom sdk) :
    Machine (OnAir sdk) (AirEvent sdk) where
  start := ⟨.entered setup, { room with tracks := .empty }, fun _ => .empty⟩
  step a event := a.step setup event

/-! ## What the session does to its workers -/

section

variable {setup : Setup} {s t : Session} {language : String} {w : Worker}

/-- Apart from the start, a step of `run` leaves each worker as it was, or tells
it to stop. -/
theorem main_worker_kept {event : MainEvent} (hdid : MainDid setup s event t)
    (hevent : ∀ raised, event ≠ .published raised) {l : String} {w' : Worker}
    (hw' : t.workers l = some w') : ∃ w, s.workers l = some w ∧ (w' = w ∨ w' = w.put none) := by
  have hsame : s.workers l = some w' → ∃ w, s.workers l = some w ∧ (w' = w ∨ w' = w.put none) :=
    fun hw => ⟨w', hw, .inl rfl⟩
  have hstop : ∀ (s₀ : Session) raising left, s₀.workers = s.workers →
      (s₀.stopNext raising left).workers l = some w' →
        ∃ w, s.workers l = some w ∧ (w' = w ∨ w' = w.put none) := by
    intro s₀ raising left hs₀ hw
    cases left with
    | nil => exact hsame (hs₀ ▸ hw)
    | cons language left =>
      by_cases hl : l = language
      · subst hl
        simp only [Session.stopNext, Function.update_self] at hw
        obtain ⟨v, hv, rfl⟩ := Option.map_eq_some_iff.mp hw
        exact ⟨v, hs₀ ▸ hv, .inr rfl⟩
      · exact hsame (by simpa [Session.stopNext, hl, hs₀] using hw)
  have hwound : ∀ raised, (s.wound setup raised).workers l = some w' →
      ∃ w, s.workers l = some w ∧ (w' = w ∨ w' = w.put none) := by
    intro raised hw
    obtain ⟨failure, raising, heq, -⟩ := Session.wound_eq setup s raised
    rw [heq] at hw
    exact hstop { s with watching := false, failure } raising _ rfl hw
  cases hdid with
  | publishFailed | published | publishedUnstored => exact absurd rfl (hevent _)
  | raced hmain hpump => exact hwound _ hw'
  | joined hmain hpump hsuppressed => exact hwound _ hw'
  | stopped hmain hw hpc => exact hstop s _ _ rfl hw'
  | closed hmain =>
    unfold Session.settle at hw'
    split at hw' <;> exact hsame hw'
  | _ => exact hsame hw'

/-- A worker that goes on with a phrase read a depth below the threshold of its
language. -/
theorem speak_opens (hcov : Covered setup s) (hl : language ∈ setup.config.targetCodes)
    {phrase : Phrase} {rest : List (Option Phrase)} {depth : ℚ} :
    ∃ w', (s.speak setup language w phrase rest (.ok depth)).workers =
        Function.update s.workers language (some w') ∧ w'.pushed = w.pushed ∧
      (w'.pc.inHand ≠ none → depth < (setup.policyFor language).skip_at_s) := by
  unfold Session.speak
  by_cases hblank : strip phrase.2 = ""
  · rw [if_pos hblank]
    exact ⟨_, rfl, rfl, fun h => absurd rfl h⟩
  rw [if_neg hblank]
  have hdecides := Session.decides hcov hl depth
  simp only
  by_cases hskip : (s.drift.observe language depth).shouldSkip language = true
  · rw [if_pos hskip]
    unfold Session.persist
    split
    · exact ⟨_, rfl, rfl, fun h => absurd rfl h⟩
    · exact ⟨_, rfl, rfl, fun h => absurd rfl h⟩
  · rw [if_neg hskip] at hdecides ⊢
    split
    · exact ⟨_, rfl, rfl, fun h => absurd rfl h⟩
    · refine ⟨_, rfl, rfl, fun _ => ?_⟩
      by_contra hle
      have hmax : max 0 depth ≥ (setup.policyFor language).skip_at_s :=
        (not_lt.mp hle).trans (le_max_right 0 depth)
      rw [DriftController.decision, if_pos hmax] at hdecides
      cases hdecides

/-- Each worker is one that was there, with what it had pushed, and with no
phrase in hand unless it had one. -/
def Rests (s t : Session) : Prop :=
  ∀ l w', t.workers l = some w' → ∃ w, s.workers l = some w ∧ w'.pushed = w.pushed ∧
    (w'.pc.inHand ≠ none → w.pc.inHand ≠ none)

theorem rests_of_same (h : t.workers = s.workers) : Rests s t :=
  fun _ w' hw' => ⟨w', h ▸ hw', rfl, id⟩

theorem rests_update {w' : Worker} (hw : s.workers language = some w)
    (ht : t.workers = Function.update s.workers language (some w')) (hpushed : w'.pushed = w.pushed)
    (hhand : w'.pc.inHand ≠ none → w.pc.inHand ≠ none) : Rests s t := by
  intro l v hv
  by_cases hl : l = language
  · subst hl
    rw [ht, Function.update_self] at hv
    cases hv
    exact ⟨w, hw, hpushed, hhand⟩
  · rw [ht, Function.update_of_ne hl] at hv
    exact ⟨v, hv, rfl, id⟩

variable [Unicode]

/-- Only the room gives a worker a phrase to speak, or takes a block of it. -/
theorem other_rests {event : Event} (hevent : event.asksRoom = false)
    (h : (sessionRuns setup).step s event = some t) : Rests s t := by
  cases event with
  | main event =>
    intro l w' hw'
    have hnot : ∀ raised, event ≠ .published raised := by
      rintro raised rfl
      cases hevent
    obtain ⟨w, hw, rfl | rfl⟩ := main_worker_kept (Session.mainStep_did h) hnot hw'
    · exact ⟨_, hw, rfl, id⟩
    · exact ⟨w, hw, rfl, id⟩
  | pump event =>
    obtain ⟨p, hpump, hstep⟩ := pump_step h
    obtain ⟨pump, hdid, -⟩ := Session.pumpStep_did hstep
    cases hdid with
    | rests => exact rests_of_same rfl
    | dispatches hpc hsubmitted =>
      intro l w' hw'
      obtain ⟨w, hw, rfl | ⟨phrase, rfl⟩⟩ := submitted_worker hsubmitted hw'
      · exact ⟨_, hw, rfl, id⟩
      · exact ⟨w, hw, rfl, id⟩
  | worker language event =>
    obtain ⟨w, hw, hstep⟩ := Option.bind_eq_some_iff.mp h
    obtain ⟨w', recorder, drift, rows, rfl, hworks⟩ := Session.workerStep_worked hstep
    cases hworks with
    | stops | takes | skips | pushes => cases hevent
    | leaves hpc hhand => exact rests_update hw rfl rfl fun h => absurd hhand h
    | records hpc => exact rests_update hw rfl rfl fun h => absurd rfl h
    | hears hpc => exact rests_update hw rfl rfl fun _ => by simp [hpc, WorkerPc.inHand]
  | watch now =>
    obtain ⟨end_reason, stop, watching, rfl⟩ := watch_step h
    exact rests_of_same rfl
  | frame t_audio t_wall =>
    obtain ⟨recorder, heq⟩ := anchorClock_eq s t_audio t_wall
    rw [frame_step h, heq]
    exact rests_of_same rfl

omit [Unicode] in
/-- `run` publishes once, at its start. -/
theorem main_published {event : MainEvent} (hdid : MainDid setup s event t) :
    t.main ≠ .publishing := by
  have hstop : ∀ (s₀ : Session) raising left, (s₀.stopNext raising left).main ≠ .publishing := by
    intro s₀ raising left
    cases left <;> simp [Session.stopNext]
  have hwound : ∀ raised, (s.wound setup raised).main ≠ .publishing := by
    intro raised
    obtain ⟨failure, raising, heq, -⟩ := Session.wound_eq setup s raised
    rw [heq]
    exact hstop _ _ _
  cases hdid with
  | raced hmain hpump => exact hwound _
  | joined hmain hpump hsuppressed => exact hwound _
  | stopped hmain hw hpc => exact hstop s _ _
  | closed hmain =>
    unfold Session.settle
    split <;> simp [Session.returns]
  | _ => simp [Session.raises, Session.returns, Session.startPump]

theorem step_published (hs : Sound setup s) {event : Event}
    (h : (sessionRuns setup).step s event = some t) (ht : t.main = .publishing) :
    s.main = .publishing := by
  cases step_did hs h with
  | main hdid => exact absurd ht (main_published hdid)
  | pump hpump hdid hcancels => cases hdid <;> exact ht
  | worker | watch | frame => exact ht

end

/-! ## The invariant of a session on the air -/

/-- The block of a language that the room makes of a block of speech. -/
def SpeechChunk.frame (num_channels : Nat) (speech : SpeechChunk) : RtcFrame :=
  ⟨speech.pcm, speech.sample_rate, num_channels, speech.pcm.length / 2 / num_channels⟩

/-- How many blocks with some audio a worker pushed. -/
def framesPushed (num_channels : Nat) (pushed : List (Nat × SpeechChunk)) : Nat :=
  (pushed.filter fun p => (p.2.frame num_channels).samples_per_channel ≠ 0).length

/-- How much audio a worker pushed. -/
def secondsPushed (num_channels : Nat) (pushed : List (Nat × SpeechChunk)) : ℚ :=
  (pushed.map fun p => (p.2.frame num_channels).seconds).sum

/-- No phrase of the language begins above it. -/
def mark (setup : Setup) (language : String) : ℚ := max 0 (setup.policyFor language).skip_at_s

/-- What holds in every state of every run. -/
structure Aired (setup : Setup) (num_channels : Nat) (a : OnAir sdk) : Prop where
  sound : Sound setup a.session
  channels : a.room.num_channels = num_channels
  within : ∀ l, (a.bouts l).Within (mark setup l)
  level : ∀ l, (a.bouts l).level = a.room.queueDepth l
  opened : ∀ l w, a.session.workers l = some w → w.pc.inHand ≠ none →
    (a.bouts l).Open (mark setup l)
  size : ∀ l entry, a.room.tracks.get? l = some entry →
    sdk.queue_size_ms entry.source = PLAYOUT_QUEUE_MS
  counted : ∀ l w, a.session.workers l = some w → ∃ entry, a.room.tracks.get? l = some entry ∧
    entry.frames_published = framesPushed num_channels w.pushed ∧
    entry.seconds_published = secondsPushed num_channels w.pushed
  unpublished : a.session.main = .publishing → ∀ l, a.room.tracks.get? l = none

section

variable {setup : Setup} {num_channels : Nat} {a b : OnAir sdk} {room : TranslationRoom sdk}

theorem mark_nonneg (setup : Setup) (language : String) : 0 ≤ mark setup language := le_max_left _ _

theorem aired_start [Unicode] (setup : Setup) (room : TranslationRoom sdk) :
    Aired setup room.num_channels (onAir setup room).start where
  sound := sound_start setup
  channels := rfl
  within l := Reservoir.within_empty (mark_nonneg setup l)
  level l := rfl
  opened l w hw := by cases hw
  size l entry hentry := by cases hentry
  counted l w hw := by cases hw
  unpublished _ l := rfl

/-- A step that gives no worker a phrase, in a room that gets no audio. -/
theorem aired_follow (h : Aired setup num_channels a) {session : Session}
    (hsound : Sound setup session) (hrests : Rests a.session session)
    (hmain : session.main = .publishing → a.session.main = .publishing)
    (hroom : a.room.Quieter room) : Aired setup num_channels (a.follow session room) where
  sound := hsound
  channels := hroom.num_channels.trans h.channels
  within l := (h.within l).runsDown (h.level l ▸ hroom.queueDepth_le l)
  level l := rfl
  opened l w' hw' hhand := by
    obtain ⟨w, hw, -, hkept⟩ := hrests l w' hw'
    exact (h.opened l w hw (hkept hhand)).runsDown (h.level l ▸ hroom.queueDepth_le l)
  size l entry hentry := by
    rcases hroom.tracks l with ⟨-, hnone⟩ | ⟨before, source, hbefore, hafter, hsize, -⟩
    · rw [OnAir.follow, hnone] at hentry
      cases hentry
    · rw [OnAir.follow, hafter] at hentry
      cases hentry
      exact hsize.trans (h.size l before hbefore)
  counted l w' hw' := by
    obtain ⟨w, hw, hpushed, -⟩ := hrests l w' hw'
    obtain ⟨entry, hentry, hframes, hseconds⟩ := h.counted l w hw
    rcases hroom.tracks l with ⟨hnone, -⟩ | ⟨before, source, hbefore, hafter, -⟩
    · rw [hnone] at hentry
      cases hentry
    · rw [hbefore] at hentry
      cases hentry
      exact ⟨_, hafter, hpushed ▸ hframes, hpushed ▸ hseconds⟩
  unpublished hstart l := by
    rcases hroom.tracks l with ⟨-, hnone⟩ | ⟨before, source, hbefore, -⟩
    · exact hnone
    · rw [h.unpublished (hmain hstart) l] at hbefore
      cases hbefore

/-- The room publishes the languages of the session, and `run` goes on. -/
theorem aired_publish [Unicode] (h : Aired setup num_channels a) {refusal : String → Option Raised}
    (hb : a.step setup (.publish refusal) = some b) : Aired setup num_channels b := by
  simp only [OnAir.step] at hb
  obtain ⟨session, hstep, rfl⟩ := Option.map_eq_some_iff.mp hb
  have hsound := sound_step h.sound hstep
  have hturn : a.session.mainStep setup (.published _) = some session := hstep
  have hdid := Session.mainStep_did hturn
  have hmain : a.session.main = .publishing := by
    generalize (TranslationRoom.publishLanguages refusal setup.config.targetCodes a.room).2 = raised
      at hdid
    cases hdid <;> assumption
  have hnone := h.unpublished hmain
  have hfirst : ∀ l entry, a.room.tracks.get? l = some entry → entry = a.room.newTrack l := by
    intro l entry hentry
    rw [hnone l] at hentry
    cases hentry
  obtain ⟨htracks, -, hchannels, hall⟩ :=
    TranslationRoom.publishLanguages_spec refusal setup.config.targetCodes hfirst
  generalize TranslationRoom.publishLanguages refusal setup.config.targetCodes a.room = published
    at *
  have hdepth : ∀ l, published.1.queueDepth l = 0 := by
    intro l
    cases hl : published.1.tracks.get? l with
    | none => rw [TranslationRoom.queueDepth, hl]
    | some entry =>
      rw [TranslationRoom.queueDepth_eq hl, htracks l entry hl]
      exact sdk.queued_audioSource _ _ _
  have hlevel : ∀ l, published.1.queueDepth l ≤ (a.bouts l).level := by
    intro l
    rw [h.level, hdepth, TranslationRoom.queueDepth, hnone]
  have hworkers : ∀ l w, session.workers l = some w → w = .fresh ∧
      published.1.tracks.get? l = some (a.room.newTrack l) := by
    intro l w hw
    have hbefore : a.session.workers l = none := by
      have hstage := h.sound.stage
      rw [hmain] at hstage
      exact hstage.2.1 l
    generalize hevent : published.2 = raised at hdid hall
    have hstarted : raised = none → (a.session.startWorkers setup).workers l = some w →
        w = .fresh ∧ published.1.tracks.get? l = some (a.room.newTrack l) := by
      intro hraised hw
      simp only [Session.startWorkers] at hw
      split at hw
      · rename_i hl
        exact ⟨(Option.some.inj hw).symm, hall hraised l (.inl hl)⟩
      · cases hw
    cases hdid with
    | publishFailed =>
      rw [Session.raises, hbefore] at hw
      cases hw
    | published => exact hstarted rfl hw
    | publishedUnstored => exact hstarted rfl hw
  exact {
    sound := hsound
    channels := hchannels.trans h.channels
    within := fun l => (h.within l).runsDown (hlevel l)
    level := fun l => rfl
    opened := fun l w hw hhand => by
      rw [(hworkers l w hw).1] at hhand
      exact absurd rfl hhand
    size := fun l entry hentry => by
      rw [htracks l entry hentry]
      exact sdk.queue_size_audioSource _ _ _
    counted := fun l w hw => by
      obtain ⟨rfl, hentry⟩ := hworkers l w hw
      exact ⟨_, hentry, rfl, rfl⟩
    unpublished := fun hstart => absurd hstart (main_published hdid) }

/-- A worker reads the queue of its language, and takes its next phrase. -/
theorem aired_took [Unicode] (h : Aired setup num_channels a) {language : String}
    (hb : a.step setup (.took language) = some b) : Aired setup num_channels b := by
  simp only [OnAir.step] at hb
  obtain ⟨session, hstep, rfl⟩ := Option.map_eq_some_iff.mp hb
  have hsound := sound_step h.sound hstep
  obtain ⟨w, hw, hturn⟩ := Option.bind_eq_some_iff.mp hstep
  obtain ⟨w', hworkers, hpushed, hopens⟩ : ∃ w', session.workers =
      Function.update a.session.workers language (some w') ∧ w'.pushed = w.pushed ∧
        (w'.pc.inHand ≠ none →
          a.room.queueDepth language < (setup.policyFor language).skip_at_s) := by
    cases Session.workerStep_turn hturn with
    | stopped => exact ⟨_, rfl, rfl, fun h => absurd rfl h⟩
    | spoke => exact speak_opens h.sound.covered (h.sound.languages language w hw)
  have hmain : session.main = .publishing → a.session.main = .publishing :=
    step_published h.sound hstep
  refine { h with sound := hsound, within := ?_, level := ?_, opened := ?_, counted := ?_,
                  unpublished := fun hstart => h.unpublished (hmain hstart) }
  · intro l
    by_cases hl : l = language
    · subst hl
      simpa [OnAir.begins] using (h.within l).begins
    · simpa [OnAir.begins, hl] using h.within l
  · intro l
    by_cases hl : l = language
    · subst hl
      simpa [OnAir.begins, Reservoir.begins] using h.level l
    · simpa [OnAir.begins, hl] using h.level l
  · intro l v hv hhand
    replace hv : session.workers l = some v := hv
    rw [hworkers] at hv
    by_cases hl : l = language
    · subst hl
      rw [Function.update_self] at hv
      cases hv
      have hbelow : (a.bouts l).level ≤ mark setup l := by
        rw [h.level]
        exact (hopens hhand).le.trans (le_max_right _ _)
      simpa [OnAir.begins] using Reservoir.open_begins hbelow
    · rw [Function.update_of_ne hl] at hv
      simpa [OnAir.begins, hl] using h.opened l v hv hhand
  · intro l v hv
    replace hv : session.workers l = some v := hv
    rw [hworkers] at hv
    by_cases hl : l = language
    · subst hl
      rw [Function.update_self] at hv
      cases hv
      rw [hpushed]
      exact h.counted l w hw
    · rw [Function.update_of_ne hl] at hv
      exact h.counted l v hv

/-- What a step of `push` is. -/
theorem pushStep_cases [Unicode] {language : String} {turn : sdk.Turn} {now : ℚ}
    (hb : a.pushStep setup language turn now = some b) :
    ∃ w phrase first speech room error session, a.session.workers language = some w ∧
      w.pc = .pushing phrase first speech ∧
      a.room.Pushed turn language speech.pcm speech.sample_rate room error ∧
      (sessionRuns setup).step a.session
        (.worker language (.pushed (pushResult now error))) = some session ∧
      b = { a with session }.fills language room
        (handed (a.room.frameOf speech.pcm speech.sample_rate) error) := by
  unfold OnAir.pushStep at hb
  split at hb
  case h_2 => cases hb
  case h_1 phrase first speech hworker =>
    obtain ⟨w, hw, hpc⟩ := Option.map_eq_some_iff.mp hworker
    split at hb
    · cases hb
    · rename_i room error hpush
      obtain ⟨session, hstep, rfl⟩ := Option.map_eq_some_iff.mp hb
      exact ⟨w, phrase, first, speech, room, error, session, hw, hpc,
        TranslationRoom.push_cases hpush, hstep, rfl⟩

/-- What `push` does to the queue of its language, and to the other tracks. -/
theorem pushed_room {turn : sdk.Turn} {language : String} {pcm : List UInt8} {sample_rate : Nat}
    {error : Option (PushError Raised)}
    (h : a.room.Pushed turn language pcm sample_rate room error) :
    room.num_channels = a.room.num_channels ∧
    room.queueDepth language ≤
      a.room.queueDepth language + handed (a.room.frameOf pcm sample_rate) error ∧
    0 ≤ handed (a.room.frameOf pcm sample_rate) error ∧
    ∀ l, l ≠ language → room.tracks.get? l = a.room.tracks.get? l := by
  have hseconds := (a.room.frameOf pcm sample_rate).seconds_nonneg
  cases h with
  | @refused error hnot =>
    have hhanded : 0 ≤ handed (a.room.frameOf pcm sample_rate) (some error) := by
      rcases error with _ | _ | _
      · exact le_rfl
      · exact le_rfl
      · exact hseconds
    exact ⟨rfl, le_add_of_nonneg_right hhanded, hhanded, fun _ _ => rfl⟩
  | nothing => exact ⟨rfl, le_add_of_nonneg_right hseconds, hseconds, fun _ _ => rfl⟩
  | raised hentry hcapture =>
    refine ⟨rfl, ?_, hseconds, fun l hl => by simp [hl]⟩
    rw [TranslationRoom.queueDepth_eq hentry,
      TranslationRoom.queueDepth_eq (by rw [TranslationRoom.get?_setTrack, if_pos rfl])]
    exact sdk.capture_le hcapture
  | taken hentry hrate hsome hcapture =>
    refine ⟨rfl, ?_, hseconds, fun l hl => by simp [hl]⟩
    rw [TranslationRoom.queueDepth_eq hentry,
      TranslationRoom.queueDepth_eq (by rw [TranslationRoom.get?_setTrack, if_pos rfl])]
    exact sdk.capture_le hcapture

theorem framesPushed_snoc (num_channels : Nat) (pushed : List (Nat × SpeechChunk)) (id : Nat)
    (speech : SpeechChunk) :
    framesPushed num_channels (pushed ++ [(id, speech)]) = framesPushed num_channels pushed +
      if (speech.frame num_channels).samples_per_channel ≠ 0 then 1 else 0 := by
  unfold framesPushed
  rw [List.filter_append, List.length_append]
  by_cases h : (speech.frame num_channels).samples_per_channel = 0
  · simp [h]
  · simp [h]

theorem secondsPushed_snoc (num_channels : Nat) (pushed : List (Nat × SpeechChunk)) (id : Nat)
    (speech : SpeechChunk) :
    secondsPushed num_channels (pushed ++ [(id, speech)]) =
      secondsPushed num_channels pushed + (speech.frame num_channels).seconds := by
  simp [secondsPushed]

/-- What a worker is after `push`. -/
theorem pushed_worker [Unicode] {s t : Session} {language : String} {w : Worker} {phrase : Phrase}
    {first : Bool} {speech : SpeechChunk} (hw : s.workers language = some w)
    (hpc : w.pc = .pushing phrase first speech) {now : ℚ} {error : Option (PushError Raised)}
    (hstep : (sessionRuns setup).step s (.worker language (.pushed (pushResult now error))) =
      some t) :
    ∃ w', t.workers = Function.update s.workers language (some w') ∧
      w'.pushed = w.pushed ++ if error = none then [(phrase.1.chunk_id, speech)] else [] := by
  obtain ⟨v, hv, hturn⟩ := Option.bind_eq_some_iff.mp hstep
  rw [hw] at hv
  cases hv
  have hraising : ∀ raised, (w.raising raised).pushed = w.pushed := by
    rintro (_ | _) <;> rfl
  generalize hresult : pushResult now error = result at hturn
  cases Session.workerStep_turn hturn with
  | unpushed =>
    refine ⟨_, rfl, ?_⟩
    cases error with
    | none => cases hresult
    | some error => rw [hraising, if_neg (by simp), List.append_nil]
  | pushed hpushing =>
    rw [hpc] at hpushing
    cases hpushing
    refine ⟨_, rfl, ?_⟩
    rcases error with _ | (_ | _ | _)
    · simp
    all_goals cases hresult

/-- The count of a track after `push`. -/
theorem pushed_counts (hchannels : a.room.num_channels = num_channels) {turn : sdk.Turn}
    {language : String} {speech : SpeechChunk} {error : Option (PushError Raised)}
    (h : a.room.Pushed turn language speech.pcm speech.sample_rate room error)
    {entry : LanguageTrack sdk} (hentry : a.room.tracks.get? language = some entry)
    {pushed : List (Nat × SpeechChunk)}
    (hframes : entry.frames_published = framesPushed num_channels pushed)
    (hseconds : entry.seconds_published = secondsPushed num_channels pushed) (id : Nat) :
    ∃ entry', room.tracks.get? language = some entry' ∧
      sdk.queue_size_ms entry'.source = sdk.queue_size_ms entry.source ∧
      entry'.frames_published = framesPushed num_channels
        (pushed ++ if error = none then [(id, speech)] else []) ∧
      entry'.seconds_published = secondsPushed num_channels
        (pushed ++ if error = none then [(id, speech)] else []) := by
  have hframe : a.room.frameOf speech.pcm speech.sample_rate = speech.frame num_channels := by
    rw [← hchannels]
    rfl
  cases h with
  | refused hnot => exact ⟨entry, hentry, rfl, by simpa using hframes, by simpa using hseconds⟩
  | nothing hfound hrate hnone =>
    rw [hframe] at hnone
    refine ⟨entry, hentry, rfl, ?_, ?_⟩
    · rw [if_pos rfl, framesPushed_snoc, if_neg (not_not.mpr hnone), hframes, Nat.add_zero]
    · rw [if_pos rfl, secondsPushed_snoc, hseconds, RtcFrame.seconds, hnone]
      simp
  | raised hfound hcapture =>
    rw [hentry] at hfound
    cases hfound
    exact ⟨_, by rw [TranslationRoom.get?_setTrack, if_pos rfl], sdk.capture_size hcapture,
      by simpa using hframes, by simpa using hseconds⟩
  | taken hfound hrate hsome hcapture =>
    rw [hentry] at hfound
    cases hfound
    rw [hframe] at hsome
    refine ⟨_, by rw [TranslationRoom.get?_setTrack, if_pos rfl], sdk.capture_size hcapture, ?_, ?_⟩
    · rw [if_pos rfl, framesPushed_snoc, if_pos hsome, hframes]
    · rw [if_pos rfl, secondsPushed_snoc, hseconds, hframe]

/-- A worker has the room take a block. -/
theorem aired_push [Unicode] (h : Aired setup num_channels a) {language : String}
    {turn : sdk.Turn} {now : ℚ} (hb : a.pushStep setup language turn now = some b) :
    Aired setup num_channels b := by
  obtain ⟨w, phrase, first, speech, room, error, session, hw, hpc, hpush, hstep, rfl⟩ :=
    pushStep_cases hb
  have hsound := sound_step h.sound hstep
  have hmain : session.main = .publishing → a.session.main = .publishing :=
    step_published h.sound hstep
  obtain ⟨hchannels, hdepth, hhanded, hothers⟩ := pushed_room hpush
  obtain ⟨w', hworkers, hpushed⟩ := pushed_worker hw hpc hstep
  obtain ⟨entry, hentry, hframes, hseconds⟩ := h.counted language w hw
  obtain ⟨entry', hentry', hsize', hframes', hseconds'⟩ :=
    pushed_counts h.channels hpush hentry hframes hseconds phrase.1.chunk_id
  have hopen := h.opened language w hw (by simp [hpc, WorkerPc.inHand])
  rw [← h.level] at hdepth
  have hqueues : ∀ l, l ≠ language → room.queueDepth l = a.room.queueDepth l := by
    intro l hl
    rw [TranslationRoom.queueDepth, TranslationRoom.queueDepth, hothers l hl]
  refine { sound := hsound, channels := hchannels.trans h.channels, within := ?_, level := ?_,
           opened := ?_, size := ?_, counted := ?_, unpublished := ?_ }
  · intro l
    by_cases hl : l = language
    · subst hl
      simpa [OnAir.fills] using (h.within l).fills hopen hhanded hdepth
    · simpa [OnAir.fills, hl] using h.within l
  · intro l
    by_cases hl : l = language
    · subst hl
      simp [OnAir.fills, Reservoir.fills]
    · simpa [OnAir.fills, hl, hqueues l hl] using h.level l
  · intro l v hv hhand
    replace hv : session.workers l = some v := hv
    by_cases hl : l = language
    · subst hl
      simpa [OnAir.fills] using hopen.fills hdepth
    · rw [hworkers, Function.update_of_ne hl] at hv
      simpa [OnAir.fills, hl] using h.opened l v hv hhand
  · intro l other hother
    replace hother : room.tracks.get? l = some other := hother
    by_cases hl : l = language
    · subst hl
      rw [hentry'] at hother
      cases hother
      exact hsize'.trans (h.size l entry hentry)
    · rw [hothers l hl] at hother
      exact h.size l other hother
  · intro l v hv
    replace hv : session.workers l = some v := hv
    rw [hworkers] at hv
    by_cases hl : l = language
    · subst hl
      rw [Function.update_self] at hv
      cases hv
      exact ⟨entry', hentry', hpushed ▸ hframes', hpushed ▸ hseconds'⟩
    · rw [Function.update_of_ne hl] at hv
      obtain ⟨other, hother, hcounts⟩ := h.counted l v hv
      exact ⟨other, (hothers l hl).trans hother, hcounts⟩
  · intro hstart
    rw [h.unpublished (hmain hstart) language] at hentry
    cases hentry

/-- Every step keeps the invariant. -/
theorem aired_step [Unicode] (h : Aired setup num_channels a) {event : AirEvent sdk}
    (hb : a.step setup event = some b) : Aired setup num_channels b := by
  cases event with
  | publish refusal => exact aired_publish h hb
  | took language => exact aired_took h hb
  | push language turn now => exact aired_push h hb
  | plays language turn =>
    cases hb
    exact aired_follow h h.sound (rests_of_same rfl) id
      (TranslationRoom.quieter_plays turn a.room language)
  | other event =>
    simp only [OnAir.step] at hb
    split at hb
    · cases hb
    · rename_i hasks
      obtain ⟨session, hstep, rfl⟩ := Option.map_eq_some_iff.mp hb
      refine aired_follow h (sound_step h.sound hstep)
        (other_rests (Bool.not_eq_true _ ▸ hasks) hstep) (step_published h.sound hstep) ?_
      split
      · exact .refl _
      · exact TranslationRoom.quieter_close _

theorem aired_of_run [Unicode] {events : List (AirEvent sdk)}
    (h : (onAir setup room).run events = some a) : Aired setup room.num_channels a :=
  (onAir setup room).invariant (aired_start setup room) (fun _ _ _ ha h => aired_step ha h)
    ⟨events, h⟩

/-! ## The laws -/

/-- Without its room, a session on the air is a run of the session. -/
theorem session_of_run [Unicode] {events : List (AirEvent sdk)}
    (h : (onAir setup room).run events = some a) :
    ∃ events', (sessionRuns setup).run events' = some a.session := by
  refine (onAir setup room).invariant (P := fun a =>
    ∃ events', (sessionRuns setup).run events' = some a.session) ⟨[], rfl⟩ ?_ ⟨events, h⟩
  rintro a event b ⟨before, hbefore⟩ hb
  have hone : ∀ {event session}, (sessionRuns setup).step a.session event = some session →
      ∃ events', (sessionRuns setup).run events' = some session :=
    fun hstep => ⟨before ++ [_], (sessionRuns setup).run_snoc_some.mpr ⟨_, hbefore, hstep⟩⟩
  cases event with
  | publish refusal =>
    obtain ⟨session, hstep, rfl⟩ := Option.map_eq_some_iff.mp hb
    exact hone hstep
  | took language =>
    obtain ⟨session, hstep, rfl⟩ := Option.map_eq_some_iff.mp hb
    exact hone hstep
  | push language turn now =>
    obtain ⟨w, phrase, first, speech, room', error, session, -, -, -, hstep, rfl⟩ :=
      pushStep_cases hb
    exact hone hstep
  | plays language turn =>
    cases hb
    exact ⟨before, hbefore⟩
  | other event =>
    simp only [onAir, OnAir.step] at hb
    split at hb
    · cases hb
    · obtain ⟨session, hstep, rfl⟩ := Option.map_eq_some_iff.mp hb
      exact hone hstep

/-- In every state of every run, the queue of a language holds at most the skip
threshold of its policy and the audio of the longest phrase. -/
theorem the_queue_stays_within_a_phrase_of_the_threshold [Unicode] (setup : Setup)
    (room : TranslationRoom sdk) {events : List (AirEvent sdk)} {a : OnAir sdk}
    (h : (onAir setup room).run events = some a) (language : String) :
    a.room.queueDepth language ≤
      max 0 (setup.policyFor language).skip_at_s + (a.bouts language).most := by
  have haired := aired_of_run h
  rw [← haired.level language]
  exact (haired.within language).level_le

/-- A worker never waits for the room with a phrase whose audio fits between the
skip threshold and the size of the queue, whatever the SDK does. -/
theorem the_room_takes_a_phrase_that_fits [Unicode] (setup : Setup) (room : TranslationRoom sdk)
    {events : List (AirEvent sdk)} {a : OnAir sdk} (h : (onAir setup room).run events = some a)
    {language : String} {w : Worker} (hw : a.session.workers language = some w) {phrase : Phrase}
    {first : Bool} {speech : SpeechChunk} (hpc : w.pc = .pushing phrase first speech)
    (hfits : max 0 (setup.policyFor language).skip_at_s + (a.bouts language).bout +
      (speech.frame a.room.num_channels).seconds ≤ PLAYOUT_QUEUE_MS / 1000)
    (turn : sdk.Turn) (now : ℚ) :
    ∃ b, (onAir setup room).step a (.push language turn now) = some b := by
  have haired := aired_of_run h
  obtain ⟨room', error, hpush⟩ : ∃ room' error,
      a.room.push turn language speech.pcm speech.sample_rate = some (room', error) := by
    cases hpush : a.room.push turn language speech.pcm speech.sample_rate with
    | some pushed => exact ⟨pushed.1, pushed.2, rfl⟩
    | none =>
      obtain ⟨entry, hentry, hcapture⟩ := TranslationRoom.push_none hpush
      have hfull := sdk.capture_waits hcapture
      rw [haired.size language entry hentry, ← TranslationRoom.queueDepth_eq hentry,
        ← haired.level] at hfull
      have hopen : (a.bouts language).level ≤ mark setup language + (a.bouts language).bout :=
        haired.opened language w hw (by simp [hpc, WorkerPc.inHand])
      have hframe : (a.room.frameOf speech.pcm speech.sample_rate).seconds =
          (speech.frame a.room.num_channels).seconds := rfl
      rw [hframe] at hfull
      unfold mark at hopen
      linarith
  have hstep : ∃ session, (sessionRuns setup).step a.session
      (.worker language (.pushed (pushResult now error))) = some session := by
    simp only [sessionRuns, hw, Option.bind_some, Session.workerStep, hpc]
    split <;> exact ⟨_, rfl⟩
  obtain ⟨session, hstep⟩ := hstep
  have hpushed : (onAir setup room).step a (.push language turn now) =
      some ({ a with session }.fills language room'
        (handed (a.room.frameOf speech.pcm speech.sample_rate) error)) := by
    simp only [onAir, OnAir.step, OnAir.pushStep, hw, Option.map_some, hpc, hpush, hstep]
  exact ⟨_, hpushed⟩

/-- In every state of every run, a language track has counted the blocks that the
worker of its language pushed, and their seconds. -/
theorem a_track_counts_what_its_worker_pushed [Unicode] (setup : Setup)
    (room : TranslationRoom sdk) {events : List (AirEvent sdk)} {a : OnAir sdk}
    (h : (onAir setup room).run events = some a) {language : String} {w : Worker}
    (hw : a.session.workers language = some w) :
    ∃ entry, a.room.tracks.get? language = some entry ∧
      entry.frames_published = framesPushed room.num_channels w.pushed ∧
      entry.seconds_published = secondsPushed room.num_channels w.pushed :=
  (aired_of_run h).counted language w hw

end

/-! ## A phrase on the air -/

/-- A source that counts seconds: what waits, and how large the queue is. A turn
says how many seconds are played. -/
def secondsSdk : AudioSdk Raised where
  Source := ℚ × Nat
  Turn := ℚ
  audioSource _ _ ms := (0, ms)
  queue_size_ms := Prod.snd
  queued_duration := Prod.fst
  capture_frame _ source frame :=
    if source.1 + frame.seconds ≤ (source.2 : ℚ) / 1000 then
      some ((source.1 + frame.seconds, source.2), none)
    else none
  aclose source := source
  plays seconds source := (min source.1 (max 0 (source.1 - seconds)), source.2)
  queue_size_audioSource _ _ _ := rfl
  queued_audioSource _ _ _ := rfl
  capture_size := by
    intro turn source frame source' raised h
    split at h
    · cases h
      rfl
    · cases h
  capture_le := by
    intro turn source frame source' raised h
    split at h
    · cases h
      exact le_rfl
    · cases h
  capture_waits := by
    intro turn source frame h
    split at h
    · cases h
    · rename_i hfull
      exact not_le.mp hfull
  aclose_size _ := rfl
  aclose_le _ := le_rfl
  plays_size _ _ := rfl
  plays_le _ source := min_le_left _ _

open ascii

/-- The room of the session: mono, two samples a second. -/
def hall : TranslationRoom secondsSdk := .new secondsSdk 2 1 Nat.two_pos Nat.one_pos

theorem bonjour_keys_nodup : ([("fr", "bonjour")].map Prod.fst).Nodup := by simp

/-- A phrase is translated, and its worker has a second of speech for the room. -/
def phraseOnAir : List (AirEvent secondsSdk) :=
  [.publish fun _ => none, .other (.main (.markedLive none)), .other (.frame 0 0),
    .other (.pump (.heard (.spoken "good morning everyone" true 1) 1 1)),
    .other (.pump (.translated (.ok ⟨[("fr", "bonjour")], bonjour_keys_nodup⟩) 2 2)), .took "fr",
    .other (.worker "fr" (.synthesised (.ok (some ⟨[0, 0, 0, 0], 2, 3⟩))))]

/-- Its worker waits for the room, with a second of audio. -/
theorem phraseOnAir_waits : (((onAir oneLanguage hall).run phraseOnAir).bind fun a =>
    (a.session.workers "fr").bind fun w =>
      match w.pc with
      | .pushing _ _ speech =>
        some (max 0 (oneLanguage.policyFor "fr").skip_at_s + (a.bouts "fr").bout +
          (speech.frame a.room.num_channels).seconds)
      | _ => none) = some 7 := by
  decide +kernel

/-- The room takes the block. -/
def phraseSpoken : List (AirEvent secondsSdk) := phraseOnAir ++ [.push "fr" (0 : ℚ) 4]

theorem phraseSpoken_evaluated : (((onAir oneLanguage hall).run phraseSpoken).bind fun a =>
    (a.session.workers "fr").map fun w =>
      (a.room.queueDepth "fr", framesPushed hall.num_channels w.pushed,
        secondsPushed hall.num_channels w.pushed)) = some (1, 1, 1) := by
  decide +kernel

theorem the_queue_stays_within_a_phrase_after_a_block :
    ∃ a, (onAir oneLanguage hall).run phraseSpoken = some a ∧ a.room.queueDepth "fr" = 1 ∧
      a.room.queueDepth "fr" ≤
        max 0 (oneLanguage.policyFor "fr").skip_at_s + (a.bouts "fr").most := by
  obtain ⟨a, hrun, heval⟩ := Option.bind_eq_some_iff.mp phraseSpoken_evaluated
  obtain ⟨w, hw, hvalues⟩ := Option.map_eq_some_iff.mp heval
  exact ⟨a, hrun, congrArg Prod.fst hvalues,
    the_queue_stays_within_a_phrase_of_the_threshold oneLanguage hall hrun "fr"⟩

theorem the_room_takes_a_second_of_speech :
    ∃ a w b, (onAir oneLanguage hall).run phraseOnAir = some a ∧
      a.session.workers "fr" = some w ∧
      (onAir oneLanguage hall).step a (.push "fr" (0 : ℚ) 4) = some b := by
  obtain ⟨a, hrun, heval⟩ := Option.bind_eq_some_iff.mp phraseOnAir_waits
  obtain ⟨w, hw, hpc⟩ := Option.bind_eq_some_iff.mp heval
  split at hpc
  case h_2 => cases hpc
  case h_1 phrase first speech hpushing =>
    have hseven := Option.some.inj hpc
    obtain ⟨b, hb⟩ := the_room_takes_a_phrase_that_fits oneLanguage hall hrun hw hpushing
      (by rw [hseven]; norm_num [PLAYOUT_QUEUE_MS]) (0 : ℚ) 4
    exact ⟨a, w, b, hrun, hw, hb⟩

theorem a_track_counts_one_block :
    ∃ a entry, (onAir oneLanguage hall).run phraseSpoken = some a ∧
      a.room.tracks.get? "fr" = some entry ∧ entry.frames_published = 1 ∧
      entry.seconds_published = 1 := by
  obtain ⟨a, hrun, heval⟩ := Option.bind_eq_some_iff.mp phraseSpoken_evaluated
  obtain ⟨w, hw, hvalues⟩ := Option.map_eq_some_iff.mp heval
  obtain ⟨-, hframes, hseconds⟩ := Prod.ext_iff.mp hvalues |>.imp_right Prod.ext_iff.mp
  obtain ⟨entry, hentry, hcounted, htotal⟩ :=
    a_track_counts_what_its_worker_pushed oneLanguage hall hrun hw
  exact ⟨a, entry, hrun, hentry, hcounted.trans hframes, htotal.trans hseconds⟩

end lad_translate.pipeline
