-- The session orchestrator (session/pipeline.py) as one machine: `run`, the
-- pump, a worker for each language, and the watchdog. One step goes from an
-- await of one task to its next await. The label says which task goes on and
-- what its collaborator gave it, so a list of labels is a schedule with a
-- pattern of failures. The log lines and the summaries are left out.
import LadTranslate.Config
import LadTranslate.Pump
import LadTranslate.Latency
import LadTranslate.Drift
import LadTranslate.Rows

open machines

namespace lad_translate.pipeline

open phrase_chunker config latency drift sessions

/-! ## The data -/

/-- What a call raises. `except Exception` catches an exception, and not the
cancellation of the task. -/
inductive Raised
  | exception (text : String) (lookup_error : Bool)
  | cancelled
deriving DecidableEq

/-- Which voice speaks a phrase, and how fast. -/
structure VoiceSpec where
  language : String
  voice_id : String
  speed : ℚ
deriving DecidableEq

/-- A block of synthesised audio. -/
structure SpeechChunk where
  pcm : List UInt8
  sample_rate : Nat
  t_wall : ℚ
deriving DecidableEq

/-- A phrase of one language: the chunk and its translation. -/
abbrev Phrase := PhraseChunk × String

/-- What `translate_many` returns. -/
structure Translations where
  items : List (String × String)
  keys_nodup : (items.map Prod.fst).Nodup

/-- What a worker does with a phrase. -/
inductive Action
  | ignored
  | failed
  | skipped
  | synthesised (voice : VoiceSpec)
deriving DecidableEq

/-- A phrase that a worker took: its text, the playout depth that the worker
observed for it, and what the worker did. -/
structure Deed where
  text : String
  observed : Option ℚ
  action : Action
deriving DecidableEq

/-- Where a worker waits: for its queue, for a block of speech, for the room
to take a block, or for the store. -/
inductive WorkerPc
  | getting
  | synthesising (phrase : Phrase) (first : Bool)
  | pushing (phrase : Phrase) (first : Bool) (speech : SpeechChunk)
  | recording
  | returned
  | died
deriving DecidableEq

/-- Synthesises and publishes one language, in order, at its own pace. The
last three fields are histories. -/
structure Worker where
  queue : List (Option Phrase)
  pc : WorkerPc
  taken : List Phrase
  deeds : List Deed
  pushed : List (Nat × SpeechChunk)
deriving DecidableEq

/-- Why a session stopped. -/
inductive Reason
  | fault (text : String)
  | maxDuration (max_duration_s : ℚ)
  | maxIdle (max_idle_s : ℚ)
deriving DecidableEq

structure SessionOutcome where
  session_id : String
  status : Status
  chunks : Nat
  failure_reason : Option Reason
deriving DecidableEq

/-- Where `run` waits. From `stopping` on, it carries what the `finally`
block has to raise again. -/
inductive MainPc
  | publishing
  | marking
  | racing
  | cancelling
  | stopping (left : List String) (raising : Option Raised)
  | closing (raising : Option Raised)
  | settling
  | finished (result : Except Raised SessionOutcome)

/-- The task of the pump: not created, running, or done with what it raised. -/
inductive PumpTask
  | absent
  | active (pump : Pump)
  | ended (raised : Option Raised)

/-- What a session is built from. The chunker's constructor refuses an
`agreement_n` of 0. -/
structure Setup where
  config : SessionConfig
  agreement : 1 ≤ config.chunker.agreement_n
  store : Bool
  drift_policy : Option DriftPolicy
  drift_policies : String → Option DriftPolicy
  started_at : ℚ

/-- The drift policies in force. -/
def Setup.policyFor (setup : Setup) : String → DriftPolicy :=
  (DriftController.new setup.config.targetCodes setup.drift_policy setup.drift_policies).policyFor

/-- One event: connect, translate, publish, settle. The last four fields are
what the collaborators were called with. -/
structure Session where
  main : MainPc
  pump : PumpTask
  workers : String → Option Worker
  watching : Bool
  stop : Bool
  recorder : LatencyRecorder
  drift : DriftController
  chunks : Nat
  last_audio_at : ℚ
  failure : Option String
  end_reason : Option Reason
  dispatched : String → List Phrase
  rows : List TranscriptRow
  closed : Nat
  settled : List (Option String)

namespace Worker

def fresh : Worker := ⟨[], .getting, [], [], []⟩

/-- `queue.put_nowait`. -/
def put (w : Worker) (item : Option Phrase) : Worker := { w with queue := w.queue ++ [item] }

/-- A phrase that raised: an exception is logged and the phrase dropped, a
cancellation ends the task. -/
def raising (w : Worker) (raised : Raised) : Worker :=
  match raised with
  | .exception _ _ => { w with pc := .getting }
  | .cancelled => { w with pc := .died }

/-- The next phrase leaves the queue, with what the worker does with it. -/
def take (w : Worker) (phrase : Phrase) (rest : List (Option Phrase)) (observed : Option ℚ)
    (action : Action) : Worker :=
  { w with
    queue := rest
    taken := w.taken ++ [phrase]
    deeds := w.deeds ++ [⟨phrase.2, observed, action⟩] }

end Worker

namespace Session

/-- A session whose `run` was entered. -/
def entered (setup : Setup) : Session where
  main := .publishing
  pump := .absent
  workers := fun _ => none
  watching := false
  stop := false
  recorder := .fresh setup.config.slo_seconds
  drift := .new setup.config.targetCodes setup.drift_policy setup.drift_policies
  chunks := 0
  last_audio_at := setup.started_at
  failure := none
  end_reason := none
  dispatched := fun _ => []
  rows := []
  closed := 0
  settled := []

def setWorker (s : Session) (language : String) (w : Worker) : Session :=
  { s with workers := Function.update s.workers language (some w) }

/-! ## The pump -/

/-- The first half of `_dispatch`: up to the call of `translate_many`. The
clock raises before the first frame arrived. -/
def beginDispatch (setup : Setup) (s : Session) (chunk : PhraseChunk) : Session × Option Raised :=
  let s := { s with chunks := s.chunks + 1 }
  let opened := setup.config.targetCodes.foldlM (fun recorder language => do
    let recorder ← recorder.openChunk chunk.chunk_id language chunk.t_audio_end
    return recorder.mark chunk.chunk_id language .committed chunk.t_wall_committed) s.recorder
  match opened with
  | .error text => (s, some (.exception text false))
  | .ok recorder =>
    let recorder := if chunk.revised_after_commit then recorder.recordRevision else recorder
    ({ s with recorder }, none)

/-- `submit`: a phrase goes to the queue of its language. -/
def submit (s : Session) (language : String) (w : Worker) (phrase : Phrase) : Session :=
  { s.setWorker language (w.put (some phrase)) with
    dispatched := Function.update s.dispatched language (s.dispatched language ++ [phrase]) }

/-- The second half of `_dispatch`: each translation to its worker. A
language without a worker raises. -/
def submitAll (chunk : PhraseChunk) (now : ℚ) :
    List (String × String) → Session → Session × Option Raised
  | [], s => (s, none)
  | (language, text) :: rest, s =>
    let s := { s with recorder := s.recorder.mark chunk.chunk_id language .translated now }
    match s.workers language with
    | none => (s, some (.exception ("KeyError: " ++ reprText language) true))
    | some w => submitAll chunk now rest (s.submit language w (chunk, text))

/-- The pump goes on to its next await. -/
def pumpTo (setup : Setup) (s : Session) (p : Pump) : Session :=
  match p.pc with
  | .receiving => { s with pump := .active p }
  | .returned => { s with pump := .ended none }
  | .translating _ chunk _ =>
    match s.beginDispatch setup chunk with
    | (s, none) => { s with pump := .active p }
    | (s, some raised) => { s with pump := .ended (some raised) }

end Session

/-- What the pump waits for: a hypothesis, with the clock before `feed` and
the clock at `tick`, the end or the failure of the source, or translations,
with the clock at their return and the clock at the `tick` after them. -/
inductive PumpEvent
  | heard (hypothesis : Hypothesis) (audio_at now : ℚ)
  | sourceEnded
  | sourceRaised (raised : Raised)
  | translated (result : Except Raised Translations) (now later : ℚ)

/-- `_pump`, and the `_dispatch` that it calls. -/
def Session.pumpStep [Unicode] (setup : Setup) (s : Session) (p : Pump) :
    PumpEvent → Option Session
  | .heard hypothesis audio_at now =>
    -- a pump that finds the stop set leaves its loop for the flush
    if s.stop then p.finish.map (s.pumpTo setup)
    else (p.hear hypothesis now).map ({ s with last_audio_at := audio_at }.pumpTo setup)
  | .sourceEnded => p.finish.map (s.pumpTo setup)
  | .sourceRaised raised =>
    match p.pc with
    | .receiving => some { s with pump := .ended (some raised) }
    | _ => none
  | .translated result now later =>
    match p.pc with
    | .translating _ chunk _ =>
      match result with
      | .error raised => some { s with pump := .ended (some raised) }
      | .ok translations =>
        match s.submitAll chunk now translations.items with
        | (s, some raised) => some { s with pump := .ended (some raised) }
        | (s, none) => (p.onward later).map (s.pumpTo setup)
    | _ => none

/-! ## The workers -/

/-- What a worker waits for: its queue, with the playout depth that the room
reports then, a block of speech or the end of it, the room, with the clock at
its return, or the store. -/
inductive WorkerEvent
  | took (depth : Except Raised ℚ)
  | synthesised (result : Except Raised (Option SpeechChunk))
  | pushed (result : Except Raised ℚ)
  | recorded (raised : Option Raised)

namespace Session

/-- `persist`: nothing without a store, else a call of it. -/
def persist (setup : Setup) (s : Session) (language : String) (w : Worker) (phrase : Phrase)
    (latency : Option ℚ) : Session :=
  if setup.store then
    { s.setWorker language { w with pc := .recording } with
      rows := s.rows ++ [{
        chunk_id := phrase.1.chunk_id
        language
        source_text := phrase.1.text
        translated_text := some phrase.2
        t_audio_start := phrase.1.t_audio_start
        t_audio_end := phrase.1.t_audio_end
        latency_s := latency
        commit_reason := some phrase.1.reason.value
        revised := phrase.1.revised_after_commit }] }
  else s.setWorker language { w with pc := .getting }

/-- `_speak`, up to its first await. -/
def speak (setup : Setup) (s : Session) (language : String) (w : Worker) (phrase : Phrase)
    (rest : List (Option Phrase)) (depth : Except Raised ℚ) : Session :=
  if strip phrase.2 = "" then
    s.setWorker language { w.take phrase rest none .ignored with pc := .getting }
  else
    match depth with
    | .error raised => s.setWorker language ((w.take phrase rest none .failed).raising raised)
    | .ok depth =>
      let s := { s with drift := s.drift.observe language depth }
      if s.drift.shouldSkip language then
        let seconds := phrase.1.t_audio_end - phrase.1.t_audio_start
        let s := { s with drift := s.drift.noteSkipped language seconds }
        s.persist setup language (w.take phrase rest (some depth) .skipped) phrase none
      else
        match setup.config.voiceFor language with
        | none =>
          s.setWorker language { w.take phrase rest (some depth) .failed with pc := .getting }
        | some voice_id =>
          let (drift, speed) := s.drift.speedFor language
          let voice : VoiceSpec := { language, voice_id, speed }
          let w := w.take phrase rest (some depth) (.synthesised voice)
          { s with drift }.setWorker language { w with pc := .synthesising phrase true }

/-- `_run` and `_speak` of one worker. -/
def workerStep (setup : Setup) (s : Session) (language : String) (w : Worker) :
    WorkerEvent → Option Session
  | .took depth =>
    match w.pc, w.queue with
    | .getting, none :: rest =>
      some (s.setWorker language { w with queue := rest, pc := .returned })
    | .getting, some phrase :: rest => some (s.speak setup language w phrase rest depth)
    | _, _ => none
  | .synthesised result =>
    match w.pc with
    | .synthesising phrase first =>
      match result with
      | .error raised => some (s.setWorker language (w.raising raised))
      | .ok none =>
        let stats := s.recorder.stats language
        let latency := if stats.count ≠ 0 then some stats.p50 else none
        some (s.persist setup language w phrase latency)
      | .ok (some speech) =>
        let recorder := if first then
          s.recorder.mark phrase.1.chunk_id language .ttsFirstAudio speech.t_wall
          else s.recorder
        some ({ s with recorder }.setWorker language { w with pc := .pushing phrase first speech })
    | _ => none
  | .pushed result =>
    match w.pc with
    | .pushing phrase first speech =>
      match result with
      | .error raised => some (s.setWorker language (w.raising raised))
      | .ok now =>
        let recorder := if first then
          s.recorder.mark phrase.1.chunk_id language .published now
          else s.recorder
        some ({ s with recorder }.setWorker language { w with
          pc := .synthesising phrase false
          pushed := w.pushed ++ [(phrase.1.chunk_id, speech)] })
    | _ => none
  | .recorded raised =>
    match w.pc with
    | .recording =>
      match raised with
      -- `persist` logs an exception of the store, and returns
      | none | some (.exception _ _) => some (s.setWorker language { w with pc := .getting })
      | some .cancelled => some (s.setWorker language { w with pc := .died })
    | _ => none

/-! ## The run -/

/-- The workers that `run` starts, one for each language. -/
def startWorkers (setup : Setup) (s : Session) : Session :=
  { s with workers := fun language =>
      if language ∈ setup.config.targetCodes then some .fresh else none }

/-- The watchdog, the pump and the stop task are created. -/
def startPump (setup : Setup) (s : Session) : Session :=
  { s with
    main := .racing
    watching := true
    pump := .active ⟨.fresh setup.config.chunker setup.agreement, .receiving⟩ }

/-- The loop of `_shutdown`: the next worker is told to stop, or the room is
closed. -/
def stopNext (s : Session) (raising : Option Raised) : List String → Session
  | [] => { s with main := .closing raising, closed := s.closed + 1 }
  | language :: left =>
    { s with
      main := .stopping (language :: left) raising
      workers := Function.update s.workers language ((s.workers language).map (·.put none)) }

/-- The `finally` block: the watchdog is cancelled, and `_shutdown` begins. -/
def cleanUp (setup : Setup) (s : Session) (raising : Option Raised) : Session :=
  { s with watching := false }.stopNext raising setup.config.targetCodes

/-- The `except Exception` block, and then the `finally` block. -/
def wound (setup : Setup) (s : Session) : Option Raised → Session
  | none => s.cleanUp setup none
  | some (.exception text _) => { s with failure := s.failure.or (some text) }.cleanUp setup none
  | some .cancelled => s.cleanUp setup (some .cancelled)

def outcome (setup : Setup) (s : Session) : SessionOutcome where
  session_id := setup.config.session_id
  status := if s.failure.isSome then .failed else .ended
  chunks := s.chunks
  failure_reason := (s.failure.map .fault).or s.end_reason

def returns (setup : Setup) (s : Session) : Session :=
  { s with main := .finished (.ok (s.outcome setup)) }

def raises (s : Session) (raised : Raised) : Session := { s with main := .finished (.error raised) }

/-- `_settle`: the session is ended in the store, when there is one. -/
def settle (setup : Setup) (s : Session) : Session :=
  if setup.store then { s with main := .settling, settled := s.settled ++ [s.failure] }
  else s.returns setup

end Session

/-- What `run` waits for: its calls, each with what it raised, the race of
the pump and the stop, and the tasks that it joins. -/
inductive MainEvent
  | published (raised : Option Raised)
  | markedLive (raised : Option Raised)
  | raced
  | joined
  | stopped
  | closed (raised : Option Raised)
  | settled (raised : Option Raised)

namespace Session

def mainStep (setup : Setup) (s : Session) : MainEvent → Option Session
  | .published raised =>
    match s.main, raised with
    | .publishing, some raised => some (s.raises raised)
    | .publishing, none =>
      let s := s.startWorkers setup
      some (if setup.store then { s with main := .marking } else s.startPump setup)
    | _, _ => none
  | .markedLive raised =>
    match s.main, raised with
    | .marking, some raised => some (s.raises raised)
    | .marking, none => some (s.startPump setup)
    | _, _ => none
  | .raced =>
    match s.main, s.pump with
    | .racing, .ended raised => some (s.wound setup raised)
    | .racing, .active _ => if s.stop then some { s with main := .cancelling } else none
    | _, _ => none
  | .joined =>
    match s.main, s.pump with
    -- the pump was cancelled, and its CancelledError is suppressed
    | .cancelling, .ended (some .cancelled) => some (s.wound setup none)
    | .cancelling, .ended raised => some (s.wound setup raised)
    | _, _ => none
  | .stopped =>
    match s.main with
    | .stopping (language :: left) raising =>
      match (s.workers language).map Worker.pc with
      | some .returned => some (s.stopNext raising left)
      | some .died => some (s.raises .cancelled)
      | _ => none
    | _ => none
  | .closed raised =>
    match s.main, raised with
    | .closing _, some raised => some (s.raises raised)
    | .closing (some raising), none => some (s.raises raising)
    | .closing none, none => some (s.settle setup)
    | _, _ => none
  | .settled raised =>
    match s.main, raised with
    | .settling, none | .settling, some (.exception _ true) => some (s.returns setup)
    | .settling, some raised => some (s.raises raised)
    | _, _ => none

/-- The watchdog woke: the caps, in the order in which they are checked. -/
def watch (setup : Setup) (s : Session) (now : ℚ) : Session :=
  let limits := setup.config.limits
  let elapsed := now - setup.started_at
  let idle := now - s.last_audio_at
  if elapsed ≥ limits.max_duration_s then
    { s with end_reason := some (.maxDuration limits.max_duration_s), stop := true, watching := false }
  else if idle ≥ limits.max_idle_s then
    { s with end_reason := some (.maxIdle limits.max_idle_s), stop := true, watching := false }
  else s

/-- `_anchor_clock`: the first frame sets the audio clock. -/
def anchorClock (s : Session) (t_audio t_wall : ℚ) : Session :=
  if s.recorder.clock.anchored then s
  else { s with recorder := { s.recorder with clock := s.recorder.clock.anchor t_audio t_wall } }

end Session

/-- Which task goes on. -/
inductive Event
  | main (event : MainEvent)
  | pump (event : PumpEvent)
  | worker (language : String) (event : WorkerEvent)
  | watch (now : ℚ)
  | frame (t_audio t_wall : ℚ)

/-- The machine of a session. -/
def sessionRuns [Unicode] (setup : Setup) : Machine Session Event where
  start := .entered setup
  step s
    | .main event => s.mainStep setup event
    | .pump event =>
      match s.pump with
      | .active p => s.pumpStep setup p event
      | _ => none
    | .worker language event => (s.workers language).bind fun w => s.workerStep setup language w event
    | .watch now => if s.watching then some (s.watch setup now) else none
    | .frame t_audio t_wall =>
      match s.pump with
      | .active _ => some (s.anchorClock t_audio t_wall)
      | _ => none

end lad_translate.pipeline
