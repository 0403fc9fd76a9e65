-- The steps of a session once more, with what they do to the recorder, to the
-- rows and to the phrase that a worker has in hand. An observer notes the
-- first block of a phrase that the room took as its publication.
import LadTranslate.Books
import LadTranslate.Stages

namespace lad_translate.pipeline

open phrase_chunker latency sessions

/-! ## Publications -/

/-- The phrase that a worker has in hand, and whether no block of it was
pushed yet. -/
def WorkerPc.inHand : WorkerPc → Option (Phrase × Bool)
  | .synthesising phrase first => some (phrase, first)
  | .pushing phrase first _ => some (phrase, first)
  | _ => none

/-- The publication of a phrase. -/
def Phrase.publication (phrase : Phrase) (language : String) (now : ℚ) : Publication :=
  ⟨phrase.1.chunk_id, language, phrase.1.t_audio_end, now⟩

/-- What an observer of the room notes: the first block of a phrase. -/
def published (s : Session) (event : Event) (_ : Session) : List Publication :=
  match event with
  | .worker language (.pushed (.ok now)) =>
    match (s.workers language).map Worker.pc with
    | some (.pushing phrase true _) => [phrase.publication language now]
    | _ => []
  | _ => []

/-- Only a block that was pushed is noted. -/
theorem published_nil {s t : Session} {language : String} {event : WorkerEvent}
    (hpush : ∀ now, event ≠ .pushed (.ok now)) : published s (.worker language event) t = [] := by
  unfold published
  split
  · rename_i l now heq
    cases heq
    exact absurd rfl (hpush now)
  · rfl

/-- The row that `persist` hands to the store. -/
def rowOf (language : String) (phrase : Phrase) (latency : Option ℚ) : TranscriptRow where
  chunk_id := phrase.1.chunk_id
  language := language
  source_text := phrase.1.text
  translated_text := some phrase.2
  t_audio_start := phrase.1.t_audio_start
  t_audio_end := phrase.1.t_audio_end
  latency_s := latency
  commit_reason := some phrase.1.reason.value
  revised := phrase.1.revised_after_commit

/-! ## The steps of a worker -/

/-- What a step of a worker does to the worker, the recorder and the rows. -/
inductive Works (setup : Setup) (s : Session) (language : String) (w : Worker) :
    WorkerEvent → Worker → LatencyRecorder → List TranscriptRow → Prop
  | stops {depth : Except Raised ℚ} {rest : List (Option Phrase)} (hpc : w.pc = .getting)
      (hqueue : w.queue = none :: rest) :
      Works setup s language w (.took depth) { w with queue := rest, pc := .returned }
        s.recorder s.rows
  | takes {depth : Except Raised ℚ} {phrase : Phrase} {rest : List (Option Phrase)}
      {observed : Option ℚ} {action : Action} {pc : WorkerPc} (hpc : w.pc = .getting)
      (hqueue : w.queue = some phrase :: rest)
      (hhand : pc.inHand = none ∨ pc = .synthesising phrase true) :
      Works setup s language w (.took depth) { w.take phrase rest observed action with pc }
        s.recorder s.rows
  | skips {depth : Except Raised ℚ} {phrase : Phrase} {rest : List (Option Phrase)}
      {observed : Option ℚ} {action : Action} (hpc : w.pc = .getting)
      (hqueue : w.queue = some phrase :: rest) :
      Works setup s language w (.took depth)
        { w.take phrase rest observed action with pc := .recording }
        s.recorder (s.rows ++ [rowOf language phrase none])
  | leaves {event : WorkerEvent} {pc : WorkerPc} (hpc : w.pc ≠ .getting) (hhand : pc.inHand = none)
      (hevent : event = .synthesised (.ok none) → setup.store = false)
      (hpush : ∀ now, event ≠ .pushed (.ok now)) :
      Works setup s language w event { w with pc } s.recorder s.rows
  | records {phrase : Phrase} {first : Bool} (hpc : w.pc = .synthesising phrase first) :
      Works setup s language w (.synthesised (.ok none)) { w with pc := .recording } s.recorder
        (s.rows ++ [rowOf language phrase
          (if (s.recorder.stats language).count ≠ 0 then some (s.recorder.stats language).p50
            else none)])
  | hears {phrase : Phrase} {first : Bool} {speech : SpeechChunk}
      (hpc : w.pc = .synthesising phrase first) :
      Works setup s language w (.synthesised (.ok (some speech)))
        { w with pc := .pushing phrase first speech }
        (if first then s.recorder.mark phrase.1.chunk_id language .ttsFirstAudio speech.t_wall
          else s.recorder) s.rows
  | pushes {phrase : Phrase} {first : Bool} {speech : SpeechChunk} {now : ℚ}
      {pushed : List (Nat × SpeechChunk)} (hpc : w.pc = .pushing phrase first speech) :
      Works setup s language w (.pushed (.ok now))
        { w with pc := .synthesising phrase false, pushed }
        (if first then s.recorder.mark phrase.1.chunk_id language .published now
          else s.recorder) s.rows

namespace Session

variable {setup : Setup} {s t : Session} {language : String} {w : Worker}

theorem raising_inHand (w : Worker) (raised : Raised) :
    ∃ pc, w.raising raised = { w with pc } ∧ pc.inHand = none := by
  cases raised with
  | exception text lookup_error => exact ⟨.getting, rfl, rfl⟩
  | cancelled => exact ⟨.died, rfl, rfl⟩

/-- What a worker did, and the session around it. -/
def Worked (setup : Setup) (s : Session) (language : String) (w : Worker) (event : WorkerEvent)
    (t : Session) : Prop :=
  ∃ w' recorder drift rows,
    t = { s with workers := Function.update s.workers language (some w'), recorder, drift, rows } ∧
      Works setup s language w event w' recorder rows

theorem speak_worked (hpc : w.pc = .getting) {phrase : Phrase} {rest : List (Option Phrase)}
    (hqueue : w.queue = some phrase :: rest) (depth : Except Raised ℚ) :
    Worked setup s language w (.took depth) (s.speak setup language w phrase rest depth) := by
  unfold speak
  by_cases hblank : strip phrase.2 = ""
  · rw [if_pos hblank]
    exact ⟨_, s.recorder, s.drift, s.rows, rfl, .takes hpc hqueue (.inl rfl)⟩
  rw [if_neg hblank]
  cases depth with
  | error raised =>
    obtain ⟨pc, heq, hhand⟩ := raising_inHand (w.take phrase rest none .failed) raised
    simp only [heq]
    exact ⟨_, s.recorder, s.drift, s.rows, rfl, .takes hpc hqueue (.inl hhand)⟩
  | ok depth =>
    simp only
    split
    · unfold persist
      split
      · exact ⟨_, s.recorder, _, _, rfl, .skips hpc hqueue⟩
      · exact ⟨_, s.recorder, _, s.rows, rfl, .takes hpc hqueue (.inl rfl)⟩
    · split
      · exact ⟨_, s.recorder, _, s.rows, rfl, .takes hpc hqueue (.inl rfl)⟩
      · exact ⟨_, s.recorder, _, s.rows, rfl, .takes hpc hqueue (.inr rfl)⟩

theorem workerStep_worked {event : WorkerEvent}
    (h : s.workerStep setup language w event = some t) : Worked setup s language w event t := by
  cases workerStep_turn h with
  | stopped hpc hqueue => exact ⟨_, s.recorder, s.drift, s.rows, rfl, .stops hpc hqueue⟩
  | spoke hpc hqueue => exact speak_worked hpc hqueue _
  | @unheard phrase first raised hpc =>
    obtain ⟨pc, heq, hhand⟩ := raising_inHand w raised
    rw [heq]
    exact ⟨_, s.recorder, s.drift, s.rows, rfl,
      .leaves (by simp [hpc]) hhand (by simp) (by simp)⟩
  | @ended phrase first hpc =>
    unfold persist
    by_cases hstore : setup.store = true
    · rw [if_pos hstore]
      exact ⟨_, s.recorder, s.drift, _, rfl, .records hpc⟩
    · rw [if_neg hstore]
      exact ⟨_, s.recorder, s.drift, s.rows, rfl,
        .leaves (by simp [hpc]) rfl (fun _ => Bool.not_eq_true _ ▸ hstore) (by simp)⟩
  | heard hpc => exact ⟨_, _, s.drift, s.rows, rfl, .hears hpc⟩
  | @unpushed phrase first speech raised hpc =>
    obtain ⟨pc, heq, hhand⟩ := raising_inHand w raised
    rw [heq]
    exact ⟨_, s.recorder, s.drift, s.rows, rfl,
      .leaves (by simp [hpc]) hhand (by simp) (by simp)⟩
  | pushed hpc => exact ⟨_, _, s.drift, s.rows, rfl, .pushes hpc⟩
  | recorded hpc | cut hpc =>
    exact ⟨_, s.recorder, s.drift, s.rows, rfl, .leaves (by simp [hpc]) rfl (by simp) (by simp)⟩

end Session

/-! ## The steps of the pump -/

/-- What a step of the pump does: it fails, it goes on by a hypothesis or to
the flush, or it submits the translations of the chunk that it waited for. -/
inductive Pumps [Unicode] (setup : Setup) (s : Session) (p : Pump) : PumpEvent → Session → Prop
  | fails {event : PumpEvent} {raised : Raised} (hevent : ∀ hyp at_ now, event ≠ .heard hyp at_ now) :
      Pumps setup s p event { s with pump := .ended (some raised) }
  | hears {hypothesis : Hypothesis} {audio_at now : ℚ} {q : Pump} (hstop : s.stop = false)
      (hq : p.hear hypothesis now = some q) :
      Pumps setup s p (.heard hypothesis audio_at now)
        ({ s with last_audio_at := audio_at }.pumpTo setup q)
  | finishes {event : PumpEvent} {q : Pump}
      (hevent : ∀ hyp at_ now, event = .heard hyp at_ now → s.stop = true)
      (hq : p.finish = some q) : Pumps setup s p event (s.pumpTo setup q)
  | submitFails {phase chunk rest} {translations : Translations} {now later : ℚ} {raised : Raised}
      (hpc : p.pc = .translating phase chunk rest) :
      Pumps setup s p (.translated (.ok translations) now later)
        { (s.submitAll chunk now translations.items).1 with pump := .ended (some raised) }
  | submits {phase chunk rest} {translations : Translations} {now later : ℚ} {q : Pump}
      (hpc : p.pc = .translating phase chunk rest) (hq : p.onward later = some q) :
      Pumps setup s p (.translated (.ok translations) now later)
        ((s.submitAll chunk now translations.items).1.pumpTo setup q)

theorem Session.pumpStep_pumps [Unicode] {setup : Setup} {s t : Session} {p : Pump}
    {event : PumpEvent} (h : s.pumpStep setup p event = some t) : Pumps setup s p event t := by
  cases Session.pumpStep_turn h with
  | stopped hstop hq => exact .finishes (fun _ _ _ _ => hstop) hq
  | heard hstop hq => exact .hears hstop hq
  | ended hq => exact .finishes (by simp) hq
  | raised | untranslated => exact .fails (by simp)
  | unsubmitted hpc => exact .submitFails hpc
  | submitted hpc _ hq => exact .submits hpc hq

/-! ## The steps of the run -/

/-- A step of `run` leaves the recorder, the rows, the count of the chunks and
what was dispatched, and it makes no pump but the first one. -/
structure Frame (setup : Setup) (s t : Session) : Prop where
  recorder : t.recorder = s.recorder
  rows : t.rows = s.rows
  chunks : t.chunks = s.chunks
  dispatched : t.dispatched = s.dispatched
  last_audio_at : t.last_audio_at = s.last_audio_at
  pump : t.pump = s.pump ∨ s.pump = .absent ∧
    t.pump = .active ⟨.fresh setup.config.chunker setup.agreement, .receiving⟩
  workers : ∀ l w, s.workers l = some w →
    t.workers l = some w ∨ t.workers l = some (w.put none)

section

variable {setup : Setup} {s t : Session}

theorem frame_stopNext (setup : Setup) (s : Session) (raising : Option Raised)
    (left : List String) : Frame setup s (s.stopNext raising left) := by
  cases left with
  | nil => exact ⟨rfl, rfl, rfl, rfl, rfl, .inl rfl, fun _ _ hw => .inl hw⟩
  | cons language left =>
    refine ⟨rfl, rfl, rfl, rfl, rfl, .inl rfl, ?_⟩
    intro l w hw
    by_cases hl : l = language
    · subst hl
      exact .inr (by simp [Session.stopNext, hw])
    · exact .inl (by simp [Session.stopNext, hl, hw])

theorem frame_wound (setup : Setup) (s : Session) (raised : Option Raised) :
    Frame setup s (s.wound setup raised) := by
  obtain ⟨failure, raising, heq, -⟩ := Session.wound_eq setup s raised
  rw [heq]
  obtain ⟨h1, h2, h3, h4, h5, h6, h7⟩ :=
    frame_stopNext setup { s with watching := false, failure } raising setup.config.targetCodes
  exact ⟨h1, h2, h3, h4, h5, h6, h7⟩

theorem main_frame {event : MainEvent} (hstage : Stage setup s s.main)
    (hdid : MainDid setup s event t) : Frame setup s t := by
  have hsame : ∀ l w, s.workers l = some w → s.workers l = some w ∨ s.workers l = some (w.put none) :=
    fun _ _ hw => .inl hw
  cases hdid with
  | raced hmain hpump => exact frame_wound setup s _
  | joined hmain hpump hsuppressed => exact frame_wound setup s _
  | stopped hmain hw hpc => exact frame_stopNext setup s _ _
  | published hmain hstore =>
    rw [hmain] at hstage
    refine ⟨rfl, rfl, rfl, rfl, rfl, .inl rfl, fun l w hw => ?_⟩
    rw [hstage.2.1 l] at hw
    cases hw
  | publishedUnstored hmain hstore =>
    rw [hmain] at hstage
    refine ⟨rfl, rfl, rfl, rfl, rfl, .inr ⟨hstage.1, rfl⟩, fun l w hw => ?_⟩
    rw [hstage.2.1 l] at hw
    cases hw
  | marked hmain =>
    rw [hmain] at hstage
    exact ⟨rfl, rfl, rfl, rfl, rfl, .inr ⟨hstage.1, rfl⟩, hsame⟩
  | closed hmain =>
    unfold Session.settle
    split <;> exact ⟨rfl, rfl, rfl, rfl, rfl, .inl rfl, hsame⟩
  | _ => exact ⟨rfl, rfl, rfl, rfl, rfl, .inl rfl, hsame⟩

end

end lad_translate.pipeline
