-- What one step of a session can do: a step of a worker, a step of the pump,
-- and the stages that `run` goes through. The laws of the session use these
-- and do not look into the steps.
import LadTranslate.Pipeline

open machines

namespace lad_translate.pipeline

open phrase_chunker config latency drift

/-! ## The steps of a worker -/

/-- What a worker does with a phrase, by its text and the depth it observed. -/
def decided (setup : Setup) (language text : String) (observed : Option ℚ) : Action :=
  if strip text = "" then .ignored
  else
    match observed with
    | none => .failed
    | some depth =>
      match DriftController.decision (setup.policyFor language) depth, setup.config.voiceFor language with
      | .skip, _ => .skipped
      | .speak _, none => .failed
      | .speak speed, some voice_id => .synthesised { language, voice_id, speed }

/-- How a worker moves: it takes the sentinel, it takes a phrase, or it goes
on with the phrase it has. -/
inductive Moves (setup : Setup) (language : String) (w : Worker) : Worker → Prop
  | stops {rest : List (Option Phrase)} (hpc : w.pc = .getting) (hqueue : w.queue = none :: rest) :
      Moves setup language w { w with queue := rest, pc := .returned }
  | takes {phrase : Phrase} {rest : List (Option Phrase)} {observed : Option ℚ} {pc : WorkerPc}
      (hpc : w.pc = .getting) (hqueue : w.queue = some phrase :: rest) (hleft : pc ≠ .returned) :
      Moves setup language w
        { w.take phrase rest observed (decided setup language phrase.2 observed) with pc }
  | goesOn {pc : WorkerPc} {pushed : List (Nat × SpeechChunk)} (hpc : w.pc ≠ .getting)
      (hrunning : w.pc ≠ .returned ∧ w.pc ≠ .died) (hleft : pc ≠ .returned) :
      Moves setup language w { w with pc, pushed }

/-- The drift controller of a session covers its languages, and decides by
the policies of its setup. -/
def Covered (setup : Setup) (s : Session) : Prop :=
  s.drift.Covers setup.config.targetCodes setup.policyFor

/-- The label cancels the worker: the call that it stands for raises
`CancelledError`. The depth is read only for a phrase with a text. -/
def WorkerEvent.Cancels (w : Worker) : WorkerEvent → Prop
  | .took (.error .cancelled) => ∃ phrase rest, w.queue = some phrase :: rest ∧ strip phrase.2 ≠ ""
  | .synthesised (.error .cancelled) => True
  | .pushed (.error .cancelled) => True
  | .recorded (some .cancelled) => True
  | _ => False

namespace Session

variable {setup : Setup} {s t : Session} {language : String} {w : Worker}

/-- The branches of a step of a worker, each with what the worker waited for. -/
inductive WorkerTurn (setup : Setup) (s : Session) (language : String) (w : Worker) :
    WorkerEvent → Session → Prop
  | stopped {depth : Except Raised ℚ} {rest : List (Option Phrase)} (hpc : w.pc = .getting)
      (hqueue : w.queue = none :: rest) :
      WorkerTurn setup s language w (.took depth)
        (s.setWorker language { w with queue := rest, pc := .returned })
  | spoke {depth : Except Raised ℚ} {phrase : Phrase} {rest : List (Option Phrase)}
      (hpc : w.pc = .getting) (hqueue : w.queue = some phrase :: rest) :
      WorkerTurn setup s language w (.took depth) (s.speak setup language w phrase rest depth)
  | unheard {phrase : Phrase} {first : Bool} {raised : Raised}
      (hpc : w.pc = .synthesising phrase first) :
      WorkerTurn setup s language w (.synthesised (.error raised))
        (s.setWorker language (w.raising raised))
  | ended {phrase : Phrase} {first : Bool} (hpc : w.pc = .synthesising phrase first) :
      WorkerTurn setup s language w (.synthesised (.ok none)) (s.persist setup language w phrase
        (if (s.recorder.stats language).count ≠ 0 then some (s.recorder.stats language).p50 else none))
  | heard {phrase : Phrase} {first : Bool} {speech : SpeechChunk}
      (hpc : w.pc = .synthesising phrase first) :
      WorkerTurn setup s language w (.synthesised (.ok (some speech)))
        ({ s with recorder := if first then
            s.recorder.mark phrase.1.chunk_id language .ttsFirstAudio speech.t_wall
            else s.recorder }.setWorker language { w with pc := .pushing phrase first speech })
  | unpushed {phrase : Phrase} {first : Bool} {speech : SpeechChunk} {raised : Raised}
      (hpc : w.pc = .pushing phrase first speech) :
      WorkerTurn setup s language w (.pushed (.error raised))
        (s.setWorker language (w.raising raised))
  | pushed {phrase : Phrase} {first : Bool} {speech : SpeechChunk} {now : ℚ}
      (hpc : w.pc = .pushing phrase first speech) :
      WorkerTurn setup s language w (.pushed (.ok now))
        ({ s with recorder := if first then
            s.recorder.mark phrase.1.chunk_id language .published now
            else s.recorder }.setWorker language { w with
          pc := .synthesising phrase false
          pushed := w.pushed ++ [(phrase.1.chunk_id, speech)] })
  | recorded {raised : Option Raised} (hpc : w.pc = .recording) (hraised : raised ≠ some .cancelled) :
      WorkerTurn setup s language w (.recorded raised)
        (s.setWorker language { w with pc := .getting })
  | cut (hpc : w.pc = .recording) :
      WorkerTurn setup s language w (.recorded (some .cancelled))
        (s.setWorker language { w with pc := .died })

theorem workerStep_turn {event : WorkerEvent} (h : s.workerStep setup language w event = some t) :
    WorkerTurn setup s language w event t := by
  unfold workerStep at h
  cases event with
  | took depth =>
    simp only at h
    split at h
    · rename_i rest hpc hqueue
      cases h
      exact .stopped hpc hqueue
    · rename_i phrase rest hpc hqueue
      cases h
      exact .spoke hpc hqueue
    · cases h
  | synthesised result =>
    simp only at h
    split at h
    case h_2 => cases h
    case h_1 phrase first hpc =>
      split at h
      · cases h
        exact .unheard hpc
      · cases h
        exact .ended hpc
      · cases h
        exact .heard hpc
  | pushed result =>
    simp only at h
    split at h
    case h_2 => cases h
    case h_1 phrase first speech hpc =>
      split at h
      · cases h
        exact .unpushed hpc
      · cases h
        exact .pushed hpc
  | recorded raised =>
    simp only at h
    split at h
    case h_2 => cases h
    case h_1 hpc =>
      split at h
      · cases h
        exact .recorded hpc (by simp)
      · cases h
        exact .recorded hpc (by simp)
      · cases h
        exact .cut hpc

/-- What a step of a worker can do to the session: the worker moves, and the
recorder, the drift controller and the rows change. -/
structure WorkerDid (setup : Setup) (s : Session) (language : String) (w : Worker) (cancels : Prop)
    (t : Session) : Prop where
  moved : ∃ w' recorder drift rows,
    t = { s with workers := Function.update s.workers language (some w'), recorder, drift, rows } ∧
      Moves setup language w w' ∧ (w'.pc = .died ↔ cancels)
  covered : Covered setup t

theorem raising_eq (w : Worker) (raised : Raised) :
    ∃ pc, w.raising raised = { w with pc } ∧ pc ≠ .returned ∧ (pc = .died ↔ raised = .cancelled) := by
  cases raised with
  | exception text lookup_error => exact ⟨.getting, rfl, by simp, by simp⟩
  | cancelled => exact ⟨.died, rfl, by simp, by simp⟩

theorem persist_eq (setup : Setup) (s : Session) (language : String) (w : Worker) (phrase : Phrase)
    (latency : Option ℚ) :
    ∃ pc rows, s.persist setup language w phrase latency =
        { s with workers := Function.update s.workers language (some { w with pc }), rows } ∧
      pc ≠ .returned ∧ pc ≠ .died := by
  unfold persist
  split
  · exact ⟨.recording, _, rfl, by simp, by simp⟩
  · exact ⟨.getting, s.rows, rfl, by simp, by simp⟩

/-- The decision of a worker that read the depth of its language. -/
theorem decides (hcov : Covered setup s) (hl : language ∈ setup.config.targetCodes) (depth : ℚ) :
    DriftController.decision (setup.policyFor language) depth =
      if (s.drift.observe language depth).shouldSkip language then .skip
      else .speak ((s.drift.observe language depth).speedFor language).2 :=
  (DriftController.decides_by_depth hcov hl depth).symm

/-- A taken phrase, with what is decided for it. -/
theorem takes_decided (hpc : w.pc = .getting) {phrase : Phrase} {rest : List (Option Phrase)}
    (hqueue : w.queue = some phrase :: rest) {observed : Option ℚ} {action : Action}
    (haction : decided setup language phrase.2 observed = action) {pc : WorkerPc}
    (hleft : pc ≠ .returned) :
    Moves setup language w { w.take phrase rest observed action with pc } := by
  subst haction
  exact .takes hpc hqueue hleft

/-- `_speak` takes the phrase, and does what is decided for its text and depth. -/
theorem speak_did (hcov : Covered setup s) (hl : language ∈ setup.config.targetCodes)
    (hpc : w.pc = .getting) {phrase : Phrase} {rest : List (Option Phrase)}
    (hqueue : w.queue = some phrase :: rest) (depth : Except Raised ℚ) :
    WorkerDid setup s language w (strip phrase.2 ≠ "" ∧ depth = .error .cancelled)
      (s.speak setup language w phrase rest depth) := by
  unfold speak
  by_cases hblank : strip phrase.2 = ""
  · rw [if_pos hblank]
    have haction : decided setup language phrase.2 none = .ignored := by rw [decided, if_pos hblank]
    exact ⟨⟨_, s.recorder, s.drift, s.rows, rfl, takes_decided hpc hqueue haction (by simp),
      by simp [hblank]⟩, hcov⟩
  rw [if_neg hblank]
  cases depth with
  | error raised =>
    obtain ⟨pc, heq, hleft, hdied⟩ := raising_eq (w.take phrase rest none .failed) raised
    have haction : decided setup language phrase.2 none = .failed := by rw [decided, if_neg hblank]
    simp only [heq]
    exact ⟨⟨_, s.recorder, s.drift, s.rows, rfl, takes_decided hpc hqueue haction hleft,
      by simp [hblank, hdied]⟩, hcov⟩
  | ok depth =>
    have hdecides := decides hcov hl depth
    have hobserved := hcov.observe language depth
    by_cases hskip : (s.drift.observe language depth).shouldSkip language = true
    · rw [if_pos hskip] at hdecides
      simp only [if_pos hskip]
      have hnoted := hobserved.noteSkipped language (phrase.1.t_audio_end - phrase.1.t_audio_start)
      generalize (s.drift.observe language depth).noteSkipped language
        (phrase.1.t_audio_end - phrase.1.t_audio_start) = drift at hnoted ⊢
      obtain ⟨pc, rows, heq, hleft, hdied⟩ := persist_eq setup { s with drift } language
        (w.take phrase rest (some depth) .skipped) phrase none
      have haction : decided setup language phrase.2 (some depth) = .skipped := by
        rw [decided, if_neg hblank, hdecides]
      rw [heq]
      exact ⟨⟨_, s.recorder, drift, rows, rfl, takes_decided hpc hqueue haction hleft,
        by simp [hdied]⟩, hnoted⟩
    · rw [if_neg hskip] at hdecides
      simp only [if_neg hskip]
      cases hvoice : setup.config.voiceFor language with
      | none =>
        have haction : decided setup language phrase.2 (some depth) = .failed := by
          rw [decided, if_neg hblank, hdecides, hvoice]
        exact ⟨⟨_, s.recorder, _, s.rows, rfl, takes_decided hpc hqueue haction (by simp), by simp⟩,
          hobserved⟩
      | some voice_id =>
        have haction : decided setup language phrase.2 (some depth) = .synthesised
            ⟨language, voice_id, ((s.drift.observe language depth).speedFor language).2⟩ := by
          rw [decided, if_neg hblank, hdecides, hvoice]
        exact ⟨⟨_, s.recorder, _, s.rows, rfl, takes_decided hpc hqueue haction (by simp), by simp⟩,
          hobserved.speedFor language⟩

theorem workerStep_did (hcov : Covered setup s) (hl : language ∈ setup.config.targetCodes)
    {event : WorkerEvent} (h : s.workerStep setup language w event = some t) :
    WorkerDid setup s language w (event.Cancels w) t := by
  have hgoes : ∀ {pc : WorkerPc} {pushed}, w.pc ≠ .getting → w.pc ≠ .returned ∧ w.pc ≠ .died →
      pc ≠ .returned → Moves setup language w { w with pc, pushed } :=
    fun hpc hrunning hleft => .goesOn hpc hrunning hleft
  cases workerStep_turn h with
  | @stopped depth rest hpc hqueue =>
    refine ⟨⟨_, s.recorder, s.drift, s.rows, rfl, .stops hpc hqueue, ?_⟩, hcov⟩
    rcases depth with (raised | raised) | depth <;> simp [WorkerEvent.Cancels, hqueue]
  | @spoke depth phrase rest hpc hqueue =>
    have hcancels : WorkerEvent.Cancels w (.took depth) ↔
        strip phrase.2 ≠ "" ∧ depth = .error .cancelled := by
      rcases depth with (_ | _) | depth <;> simp [WorkerEvent.Cancels, hqueue]
    obtain ⟨⟨w', recorder, drift, rows, ht, hmoves, hdied⟩, hcovered⟩ :=
      speak_did hcov hl hpc hqueue depth
    exact ⟨⟨w', recorder, drift, rows, ht, hmoves, hdied.trans hcancels.symm⟩, hcovered⟩
  | @unheard phrase first raised hpc =>
    obtain ⟨pc, heq, hleft, hdied⟩ := raising_eq w raised
    rw [heq]
    refine ⟨⟨_, s.recorder, s.drift, s.rows, rfl, hgoes (by simp [hpc]) (by simp [hpc]) hleft,
      hdied.trans ?_⟩, hcov⟩
    cases raised <;> simp [WorkerEvent.Cancels]
  | @ended phrase first hpc =>
    obtain ⟨pc, rows, heq, hleft, hdied⟩ := persist_eq setup s language w phrase
      (if (s.recorder.stats language).count ≠ 0 then some (s.recorder.stats language).p50 else none)
    rw [heq]
    exact ⟨⟨_, s.recorder, s.drift, rows, rfl, hgoes (by simp [hpc]) (by simp [hpc]) hleft,
      by simp [WorkerEvent.Cancels, hdied]⟩, hcov⟩
  | heard hpc =>
    exact ⟨⟨_, _, s.drift, s.rows, rfl, hgoes (by simp [hpc]) (by simp [hpc]) (by simp),
      by simp [WorkerEvent.Cancels]⟩, hcov⟩
  | @unpushed phrase first speech raised hpc =>
    obtain ⟨pc, heq, hleft, hdied⟩ := raising_eq w raised
    rw [heq]
    refine ⟨⟨_, s.recorder, s.drift, s.rows, rfl, hgoes (by simp [hpc]) (by simp [hpc]) hleft,
      hdied.trans ?_⟩, hcov⟩
    cases raised <;> simp [WorkerEvent.Cancels]
  | pushed hpc =>
    exact ⟨⟨_, _, s.drift, s.rows, rfl, hgoes (by simp [hpc]) (by simp [hpc]) (by simp),
      by simp [WorkerEvent.Cancels]⟩, hcov⟩
  | recorded hpc hraised =>
    exact ⟨⟨_, s.recorder, s.drift, s.rows, rfl, hgoes (by simp [hpc]) (by simp [hpc]) (by simp),
      by simp [WorkerEvent.Cancels, hraised]⟩, hcov⟩
  | cut hpc =>
    exact ⟨⟨_, s.recorder, s.drift, s.rows, rfl, hgoes (by simp [hpc]) (by simp [hpc]) (by simp),
      by simp [WorkerEvent.Cancels]⟩, hcov⟩

end Session

/-! ## The steps of the pump -/

/-- A language got one more phrase of a chunk, or nothing. -/
def Submitted (chunk : PhraseChunk) (s t : Session) : Prop :=
  ∀ l, (t.workers l = s.workers l ∧ t.dispatched l = s.dispatched l) ∨
    ∃ w text, s.workers l = some w ∧ t.workers l = some (w.put (some (chunk, text))) ∧
      t.dispatched l = s.dispatched l ++ [(chunk, text)]

/-- The label cancels the pump: what the pump waits for raises `CancelledError`. -/
def PumpEvent.Cancels : PumpEvent → Prop
  | .sourceRaised .cancelled => True
  | .translated (.error .cancelled) _ _ => True
  | _ => False

namespace Session

variable {setup : Setup} {s t : Session}

theorem submitAll_submits (chunk : PhraseChunk) (now : ℚ) {items : List (String × String)}
    (hitems : (items.map Prod.fst).Nodup) (s : Session) :
    Submitted chunk s (s.submitAll chunk now items).1 ∧
      (∀ l, l ∉ items.map Prod.fst →
        (s.submitAll chunk now items).1.workers l = s.workers l ∧
          (s.submitAll chunk now items).1.dispatched l = s.dispatched l) ∧
      ∃ workers dispatched recorder,
        (s.submitAll chunk now items).1 = { s with workers, dispatched, recorder } := by
  induction items generalizing s with
  | nil => exact ⟨fun l => .inl ⟨rfl, rfl⟩, fun _ _ => ⟨rfl, rfl⟩, _, _, _, rfl⟩
  | cons item items ih =>
    obtain ⟨language, text⟩ := item
    rw [List.map_cons, List.nodup_cons] at hitems
    unfold submitAll
    simp only
    split
    · exact ⟨fun l => .inl ⟨rfl, rfl⟩, fun _ _ => ⟨rfl, rfl⟩, _, _, _, rfl⟩
    · rename_i w hw
      generalize hs : { s with recorder := _ } = s' at hw ⊢
      have hworkers : s'.workers = s.workers := by rw [← hs]
      have hdispatched : s'.dispatched = s.dispatched := by rw [← hs]
      obtain ⟨hsubmitted, hothers, workers, dispatched, recorder, hframe⟩ :=
        ih hitems.2 (s'.submit language w (chunk, text))
      have helse : ∀ l, l ≠ language → (s'.submit language w (chunk, text)).workers l = s.workers l ∧
          (s'.submit language w (chunk, text)).dispatched l = s.dispatched l := by
        intro l hl
        simp [submit, setWorker, hl, hworkers, hdispatched]
      refine ⟨?_, ?_, workers, dispatched, recorder, ?_⟩
      · intro l
        by_cases hl : l = language
        · subst hl
          obtain ⟨hw', hd'⟩ := hothers l hitems.1
          exact .inr ⟨w, text, hw, by rw [hw']; simp [submit, setWorker],
            by rw [hd']; simp [submit, hdispatched]⟩
        · have hsame := hsubmitted l
          rwa [(helse l hl).1, (helse l hl).2] at hsame
      · intro l hl
        rw [List.map_cons, List.mem_cons, not_or] at hl
        rw [(hothers l hl.2).1, (hothers l hl.2).2]
        exact helse l hl.1
      · rw [hframe, ← hs]
        rfl

theorem submitAll_raised (chunk : PhraseChunk) (now : ℚ) (items : List (String × String))
    (s : Session) : (s.submitAll chunk now items).2 ≠ some .cancelled := by
  induction items generalizing s with
  | nil => simp [submitAll]
  | cons item items ih =>
    unfold submitAll
    simp only
    split
    · simp
    · exact ih _

theorem beginDispatch_raised (setup : Setup) (s : Session) (chunk : PhraseChunk) :
    ∃ recorder chunks, (s.beginDispatch setup chunk).1 = { s with recorder, chunks } ∧
      (s.beginDispatch setup chunk).2 ≠ some .cancelled := by
  unfold beginDispatch
  simp only
  split
  · exact ⟨s.recorder, _, rfl, by simp⟩
  · exact ⟨_, _, rfl, by simp⟩

/-- The pump rests at its next await, or it is over, and it is never over
with a `CancelledError` of its own. -/
theorem pumpTo_eq (setup : Setup) (s : Session) (p : Pump) :
    ∃ pump recorder chunks, s.pumpTo setup p = { s with pump, recorder, chunks } ∧
      (pump = .active p ∨ ∃ raised, pump = .ended raised ∧ raised ≠ some .cancelled) := by
  unfold pumpTo
  split
  · exact ⟨_, s.recorder, s.chunks, rfl, .inl rfl⟩
  · exact ⟨_, s.recorder, s.chunks, rfl, .inr ⟨none, rfl, by simp⟩⟩
  · rename_i chunk _ _
    obtain ⟨recorder, chunks, heq, hraised⟩ := beginDispatch_raised setup s chunk
    split
    · rename_i s' hbegun
      rw [hbegun] at heq
      simp only at heq
      exact ⟨_, recorder, chunks, by rw [heq], .inl rfl⟩
    · rename_i s' raised hbegun
      rw [hbegun] at heq hraised
      simp only at heq
      exact ⟨_, recorder, chunks, by rw [heq], .inr ⟨some raised, rfl, hraised⟩⟩

/-- What a step of the pump can do to the session. Either it dispatches
nothing, and goes on by a hypothesis or to the flush, or the chunk that it
waited for goes to the workers. In both cases it may end. -/
inductive PumpDid [Unicode] (s : Session) (p : Pump) : PumpTask → Session → Prop
  | rests {pump recorder chunks last_audio_at}
      (hpump : (∃ q hypothesis now, pump = .active q ∧
          (p.hear hypothesis now = some q ∨ p.finish = some q)) ∨ ∃ raised, pump = .ended raised) :
      PumpDid s p pump { s with pump, recorder, chunks, last_audio_at }
  | dispatches {pump recorder chunks workers dispatched phase chunk rest}
      (hpc : p.pc = .translating phase chunk rest)
      (hsubmitted : Submitted chunk s { s with pump, recorder, chunks, workers, dispatched })
      (hpump : (∃ q later, pump = .active q ∧ p.onward later = some q) ∨
        ∃ raised, pump = .ended raised) :
      PumpDid s p pump { s with pump, recorder, chunks, workers, dispatched }

/-- The branches of a step of the pump. -/
inductive PumpTurn [Unicode] (setup : Setup) (s : Session) (p : Pump) : PumpEvent → Session → Prop
  | stopped {hypothesis : Hypothesis} {audio_at now : ℚ} {q : Pump} (hstop : s.stop = true)
      (hq : p.finish = some q) :
      PumpTurn setup s p (.heard hypothesis audio_at now) (s.pumpTo setup q)
  | heard {hypothesis : Hypothesis} {audio_at now : ℚ} {q : Pump} (hstop : s.stop = false)
      (hq : p.hear hypothesis now = some q) :
      PumpTurn setup s p (.heard hypothesis audio_at now)
        ({ s with last_audio_at := audio_at }.pumpTo setup q)
  | ended {q : Pump} (hq : p.finish = some q) : PumpTurn setup s p .sourceEnded (s.pumpTo setup q)
  | raised {raised : Raised} (hpc : p.pc = .receiving) :
      PumpTurn setup s p (.sourceRaised raised) { s with pump := .ended (some raised) }
  | untranslated {phase chunk rest} {raised : Raised} {now later : ℚ}
      (hpc : p.pc = .translating phase chunk rest) :
      PumpTurn setup s p (.translated (.error raised) now later)
        { s with pump := .ended (some raised) }
  | unsubmitted {phase chunk rest} {translations : Translations} {now later : ℚ} {raised : Raised}
      (hpc : p.pc = .translating phase chunk rest)
      (hall : (s.submitAll chunk now translations.items).2 = some raised) :
      PumpTurn setup s p (.translated (.ok translations) now later)
        { (s.submitAll chunk now translations.items).1 with pump := .ended (some raised) }
  | submitted {phase chunk rest} {translations : Translations} {now later : ℚ} {q : Pump}
      (hpc : p.pc = .translating phase chunk rest)
      (hall : (s.submitAll chunk now translations.items).2 = none)
      (hq : p.onward later = some q) :
      PumpTurn setup s p (.translated (.ok translations) now later)
        ((s.submitAll chunk now translations.items).1.pumpTo setup q)

theorem pumpStep_turn [Unicode] {p : Pump} {event : PumpEvent}
    (h : s.pumpStep setup p event = some t) : PumpTurn setup s p event t := by
  unfold pumpStep at h
  cases event with
  | heard hypothesis audio_at now =>
    simp only at h
    split at h
    · rename_i hstop
      obtain ⟨q, hq, rfl⟩ := Option.map_eq_some_iff.mp h
      exact .stopped hstop hq
    · rename_i hstop
      obtain ⟨q, hq, rfl⟩ := Option.map_eq_some_iff.mp h
      exact .heard (Bool.not_eq_true _ ▸ hstop) hq
  | sourceEnded =>
    obtain ⟨q, hq, rfl⟩ := Option.map_eq_some_iff.mp h
    exact .ended hq
  | sourceRaised raised =>
    simp only at h
    split at h
    · rename_i hpc
      cases h
      exact .raised hpc
    · cases h
  | translated result now later =>
    simp only at h
    split at h
    case h_2 => cases h
    case h_1 phase chunk rest hpc =>
      split at h
      · cases h
        exact .untranslated hpc
      · rename_i translations
        split at h
        · rename_i s' raised hall
          cases h
          have hturn : PumpTurn setup s p (.translated (.ok translations) now later)
              { (s.submitAll chunk now translations.items).1 with pump := .ended (some raised) } :=
            .unsubmitted hpc (by rw [hall])
          rwa [hall] at hturn
        · rename_i s' hall
          obtain ⟨q, hq, rfl⟩ := Option.map_eq_some_iff.mp h
          have hturn : PumpTurn setup s p (.translated (.ok translations) now later)
              ((s.submitAll chunk now translations.items).1.pumpTo setup q) :=
            .submitted hpc (by rw [hall]) hq
          rwa [hall] at hturn

/-- A pump that goes on without a dispatch. -/
theorem pumpTo_did [Unicode] (setup : Setup) (s : Session) {p q : Pump} {hypothesis : Hypothesis}
    {now : ℚ} (hq : p.hear hypothesis now = some q ∨ p.finish = some q) (last_audio_at : ℚ) :
    ∃ pump, PumpDid s p pump ({ s with last_audio_at }.pumpTo setup q) ∧
      pump ≠ .ended (some .cancelled) := by
  obtain ⟨pump, recorder, chunks, heq, hpump⟩ := pumpTo_eq setup { s with last_audio_at } q
  rw [heq]
  rcases hpump with hpump | ⟨raised, hpump, hraised⟩
  · exact ⟨pump, .rests (.inl ⟨q, hypothesis, now, hpump, hq⟩), by simp [hpump]⟩
  · exact ⟨pump, .rests (.inr ⟨raised, hpump⟩), by simpa [hpump] using hraised⟩

theorem pumpStep_did [Unicode] {p : Pump} {event : PumpEvent}
    (h : s.pumpStep setup p event = some t) :
    ∃ pump, PumpDid s p pump t ∧ (pump = .ended (some .cancelled) ↔ event.Cancels) := by
  cases pumpStep_turn h with
  | @stopped hypothesis audio_at now q hstop hq =>
    obtain ⟨pump, hdid, hpump⟩ := pumpTo_did setup s
      (.inr hq : p.hear hypothesis now = some q ∨ _) s.last_audio_at
    exact ⟨pump, hdid, iff_of_false hpump id⟩
  | @heard hypothesis audio_at now q hstop hq =>
    obtain ⟨pump, hdid, hpump⟩ := pumpTo_did setup s (.inl hq) audio_at
    exact ⟨pump, hdid, iff_of_false hpump id⟩
  | @ended q hq =>
    obtain ⟨pump, hdid, hpump⟩ := pumpTo_did setup s
      (.inr hq : p.hear (.spoken "" true 0) 0 = some q ∨ _) s.last_audio_at
    exact ⟨pump, hdid, iff_of_false hpump id⟩
  | @raised raised hpc =>
    refine ⟨.ended (some raised), .rests (.inr ⟨_, rfl⟩), ?_⟩
    cases raised <;> simp [PumpEvent.Cancels]
  | @untranslated phase chunk rest raised now later hpc =>
    refine ⟨.ended (some raised), .rests (.inr ⟨_, rfl⟩), ?_⟩
    cases raised <;> simp [PumpEvent.Cancels]
  | @unsubmitted phase chunk rest translations now later raised hpc hall =>
    obtain ⟨hsubmitted, -, workers, dispatched, recorder, hframe⟩ :=
      submitAll_submits chunk now translations.keys_nodup s
    have hraised := submitAll_raised chunk now translations.items s
    rw [hall] at hraised
    rw [hframe] at hsubmitted ⊢
    exact ⟨.ended (some raised), .dispatches hpc hsubmitted (.inr ⟨_, rfl⟩),
      iff_of_false (by simpa using hraised) id⟩
  | @submitted phase chunk rest translations now later q hpc hall hq =>
    obtain ⟨hsubmitted, -, workers, dispatched, recorder, hframe⟩ :=
      submitAll_submits chunk now translations.keys_nodup s
    rw [hframe] at hsubmitted ⊢
    obtain ⟨pump, recorder, chunks, heq, hpump⟩ := pumpTo_eq setup _ q
    rw [heq]
    rcases hpump with hpump | ⟨raised, hpump, hraised⟩
    · exact ⟨pump, .dispatches hpc hsubmitted (.inl ⟨q, later, hpump, hq⟩),
        iff_of_false (by simp [hpump]) id⟩
    · exact ⟨pump, .dispatches hpc hsubmitted (.inr ⟨raised, hpump⟩),
        iff_of_false (by simpa [hpump] using hraised) id⟩

end Session

/-! ## The steps of the run -/

/-- What a step of `run` can do to the session. -/
inductive MainDid (setup : Setup) (s : Session) : MainEvent → Session → Prop
  | publishFailed {raised : Raised} (hmain : s.main = .publishing) :
      MainDid setup s (.published (some raised)) (s.raises raised)
  | published (hmain : s.main = .publishing) (hstore : setup.store = true) :
      MainDid setup s (.published none) { s.startWorkers setup with main := .marking }
  | publishedUnstored (hmain : s.main = .publishing) (hstore : setup.store = false) :
      MainDid setup s (.published none) ((s.startWorkers setup).startPump setup)
  | markFailed {raised : Raised} (hmain : s.main = .marking) :
      MainDid setup s (.markedLive (some raised)) (s.raises raised)
  | marked (hmain : s.main = .marking) : MainDid setup s (.markedLive none) (s.startPump setup)
  | raced {raised : Option Raised} (hmain : s.main = .racing) (hpump : s.pump = .ended raised) :
      MainDid setup s .raced (s.wound setup raised)
  | timedOut {p : Pump} (hmain : s.main = .racing) (hpump : s.pump = .active p) :
      MainDid setup s .raced { s with main := .cancelling }
  | joined {raised suppressed : Option Raised} (hmain : s.main = .cancelling)
      (hpump : s.pump = .ended raised) (hsuppressed : suppressed ≠ some .cancelled) :
      MainDid setup s .joined (s.wound setup suppressed)
  | stopped {language : String} {left : List String} {raising : Option Raised} {w : Worker}
      (hmain : s.main = .stopping (language :: left) raising) (hw : s.workers language = some w)
      (hpc : w.pc = .returned) : MainDid setup s .stopped (s.stopNext raising left)
  | stopFailed {language : String} {left : List String} {raising : Option Raised} {w : Worker}
      (hmain : s.main = .stopping (language :: left) raising) (hw : s.workers language = some w)
      (hpc : w.pc = .died) : MainDid setup s .stopped (s.raises .cancelled)
  | closeFailed {raising : Option Raised} {raised : Raised} (hmain : s.main = .closing raising) :
      MainDid setup s (.closed (some raised)) (s.raises raised)
  | closedRaising {raising : Raised} (hmain : s.main = .closing (some raising)) :
      MainDid setup s (.closed none) (s.raises raising)
  | closed (hmain : s.main = .closing none) : MainDid setup s (.closed none) (s.settle setup)
  | settled {raised : Option Raised} (hmain : s.main = .settling) :
      MainDid setup s (.settled raised) (s.returns setup)
  | settleFailed {raised : Raised} (hmain : s.main = .settling) :
      MainDid setup s (.settled (some raised)) (s.raises raised)

namespace Session

variable {setup : Setup} {s t : Session}

/-- What the pump ended with goes into the failure, or is raised after the
clean-up. -/
theorem wound_eq (setup : Setup) (s : Session) (raised : Option Raised) :
    ∃ failure raising, s.wound setup raised =
        { s with watching := false, failure }.stopNext raising setup.config.targetCodes ∧
      (raising ≠ none ↔ raised = some .cancelled) := by
  rcases raised with _ | (⟨text, lookup_error⟩ | _)
  · exact ⟨s.failure, none, rfl, by simp⟩
  · exact ⟨s.failure.or (some text), none, rfl, by simp⟩
  · exact ⟨s.failure, some .cancelled, rfl, by simp⟩

theorem mainStep_did {event : MainEvent} (h : s.mainStep setup event = some t) :
    MainDid setup s event t := by
  cases event with
  | published raised =>
    simp only [mainStep] at h
    split at h
    · rename_i hmain
      cases h
      exact .publishFailed hmain
    · rename_i hmain
      by_cases hstore : setup.store = true
      · rw [if_pos hstore] at h
        cases h
        exact .published hmain hstore
      · rw [if_neg hstore] at h
        cases h
        exact .publishedUnstored hmain (Bool.not_eq_true _ ▸ hstore)
    · cases h
  | markedLive raised =>
    simp only [mainStep] at h
    split at h
    · rename_i hmain
      cases h
      exact .markFailed hmain
    · rename_i hmain
      cases h
      exact .marked hmain
    · cases h
  | raced =>
    simp only [mainStep] at h
    split at h
    · rename_i hmain hpump
      cases h
      exact .raced hmain hpump
    · rename_i hmain hpump
      split at h
      · cases h
        exact .timedOut hmain hpump
      · cases h
    · cases h
  | joined =>
    simp only [mainStep] at h
    split at h
    · rename_i hmain hpump
      cases h
      exact .joined hmain hpump (by simp)
    · rename_i raised hother hmain hpump
      cases h
      exact .joined hmain hpump hother
    · cases h
  | stopped =>
    simp only [mainStep] at h
    split at h
    · rename_i language left raising hmain
      split at h
      · rename_i hpc
        obtain ⟨w, hw, hpc⟩ := Option.map_eq_some_iff.mp hpc
        cases h
        exact .stopped hmain hw hpc
      · rename_i hpc
        obtain ⟨w, hw, hpc⟩ := Option.map_eq_some_iff.mp hpc
        cases h
        exact .stopFailed hmain hw hpc
      · cases h
    · cases h
  | closed raised =>
    simp only [mainStep] at h
    split at h
    · rename_i hmain
      cases h
      exact .closeFailed hmain
    · rename_i hmain
      cases h
      exact .closedRaising hmain
    · rename_i hmain
      cases h
      exact .closed hmain
    · cases h
  | settled raised =>
    simp only [mainStep] at h
    split at h
    · rename_i hmain
      cases h
      exact .settled hmain
    · rename_i hmain
      cases h
      exact .settled hmain
    · rename_i hmain
      cases h
      exact .settleFailed hmain
    · cases h

end Session

end lad_translate.pipeline
