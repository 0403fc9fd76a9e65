-- Text to speech with Piper (adapters/tts_piper.py). A thread synthesises a
-- phrase and posts each piece of audio to the event loop. The consumer of the
-- stream looks one piece ahead, to mark the last one. The pieces, and the error
-- that the synthesis raises after them, are those of the voice. Log lines are
-- left out.
import LadTranslate.Fallible
import LadTranslate.OrderedDicts
import LadTranslate.Pipeline

open fallible machines ordered_dicts

namespace lad_translate.tts_piper

open phrase_chunker pipeline

/-! ## Voices -/

/-- What the synthesis of a phrase gives: its pieces, and then an error or none. -/
structure Synthesis (ε : Type) where
  pieces : List (List UInt8)
  error : Option ε

/-- A voice, and what it synthesises from a text with a length scale. -/
structure PiperVoice (ε : Type) where
  sample_rate : Nat
  synthesize : String → ℚ → Synthesis ε

def DEFAULT_VOICES : OrderedDict String String :=
  OrderedDict.empty.setAll [("fr", "fr_FR-siwis-medium"), ("de", "de_DE-thorsten-medium"),
    ("es", "es_ES-davefx-medium"), ("ar", "ar_JO-kareem-medium"), ("te", "te_IN-maya-medium"),
    ("hi", "hi_IN-pratham-medium")]

structure PiperTtsAdapter (ε : Type) where
  voices : OrderedDict String (PiperVoice ε)
  sample_rate : Option Nat

variable {ε : Type}

namespace PiperTtsAdapter

/-- One language of `_load`. `files` holds the voices by their paths. -/
def load (voice_root : String) (names : OrderedDict String String)
    (files : String → Option (PiperVoice ε)) (a : PiperTtsAdapter ε) (language : String) :
    Except String (PiperTtsAdapter ε) :=
  match names.get? language with
  | none => throw ("no Piper voice configured for " ++ reprText language ++
      ". Add one to DEFAULT_VOICES or pass voices=\x7b...\x7d.")
  | some name =>
    let path := voice_root ++ "/" ++ name ++ ".onnx"
    match files path with
    | none => throw ("voice " ++ name ++ " not found at " ++ path ++
        ". Fetch it with: python tools/fetch_tts_voices.py --voice " ++ name)
    | some voice =>
      let voices := a.voices.set language voice
      match a.sample_rate with
      | none => return { voices, sample_rate := some voice.sample_rate }
      | some session =>
        if voice.sample_rate = session then return { voices, sample_rate := some session }
        else throw ("voice " ++ name ++ " runs at " ++ toString voice.sample_rate ++
          "Hz but the session is at " ++ toString session ++ "Hz; pick voices with one sample rate")

def new (languages : List String) (voice_root : String) (voices : Option (OrderedDict String String))
    (files : String → Option (PiperVoice ε)) : Except String (PiperTtsAdapter ε) :=
  let names := DEFAULT_VOICES.update (voices.getD .empty)
  languages.foldlM (load voice_root names files) ⟨.empty, none⟩

def supports (a : PiperTtsAdapter ε) (language : String) : Bool := (a.voices.get? language).isSome

/-- What `synthesise` starts a thread for, if it does: a text of white space
gives no audio. The length scale is the inverse of the speed. -/
def opening (a : PiperTtsAdapter ε) (text : String) (voice : VoiceSpec) :
    Except String (Option (Synthesis ε)) :=
  match a.voices.get? voice.language with
  | none => throw ("no voice loaded for " ++ reprText voice.language)
  | some loaded =>
    if strip text = "" then return none
    else return some (loaded.synthesize text (if voice.speed > 0 then 1 / voice.speed else 1))

end PiperTtsAdapter

/-! ## The stream of a phrase -/

/-- A block of synthesised audio for one language. -/
structure SpeechChunk extends pipeline.SpeechChunk where
  chunk_id : Nat
  language : String
  is_last : Bool
deriving DecidableEq

/-- The thread: before its next piece, before it is done, and done. -/
inductive Producer
  | posting (pieces : List (List UInt8))
  | ending
  | done

/-- What the thread posted to the event loop: an item for the queue, where none
is the end of the stream, or the result of the thread. -/
inductive Callback (ε : Type)
  | put (item : Option (List UInt8))
  | resolve (error : Option ε)

/-- The generator: at its first `queue.get()`, at the one that looks ahead, at
its `yield`, at `await future`, and after that. -/
inductive Consumer (ε : Type)
  | first
  | holding (pending : List UInt8)
  | yielding (nxt : Option (List UInt8))
  | joining
  | ended (error : Option ε)
deriving DecidableEq

structure Streaming (ε : Type) where
  producer : Producer
  posted : List (Callback ε)
  queue : List (Option (List UInt8))
  future : Option (Option ε)
  consumer : Consumer ε
  yielded : List SpeechChunk

inductive Turn
  /-- the thread posts its next piece -/
  | post
  /-- the `finally` of the thread posts the end -/
  | finish
  /-- the thread is done, and its future is to be resolved -/
  | complete
  /-- the event loop runs the callback that was posted first -/
  | callback
  /-- the generator gets an item -/
  | get
  /-- the caller asks for another chunk -/
  | ask
  /-- the generator gets the result of the thread -/
  | join

/-- What is the same for every chunk of a phrase. -/
structure PhraseSpec where
  sample_rate : Nat
  language : String
  chunk_id : Nat
  now : Nat → ℚ

/-- The chunk that a piece is yielded as, after so many others. -/
def PhraseSpec.chunk (spec : PhraseSpec) (count : Nat) (pcm : List UInt8) (is_last : Bool) :
    SpeechChunk where
  pcm
  sample_rate := spec.sample_rate
  t_wall := spec.now count
  chunk_id := spec.chunk_id
  language := spec.language
  is_last

def Streaming.step (spec : PhraseSpec) (error : Option ε) (s : Streaming ε) :
    Turn → Option (Streaming ε)
  | .post =>
    match s.producer with
    | .posting (piece :: rest) =>
      some { s with producer := .posting rest, posted := s.posted ++ [.put (some piece)] }
    | _ => none
  | .finish =>
    match s.producer with
    | .posting [] => some { s with producer := .ending, posted := s.posted ++ [.put none] }
    | _ => none
  | .complete =>
    match s.producer with
    | .ending => some { s with producer := .done, posted := s.posted ++ [.resolve error] }
    | _ => none
  | .callback =>
    match s.posted with
    | .put item :: posted => some { s with posted, queue := s.queue ++ [item] }
    | .resolve result :: posted => some { s with posted, future := some result }
    | [] => none
  | .get =>
    match s.consumer, s.queue with
    | .first, none :: queue => some { s with queue, consumer := .joining }
    | .first, some pending :: queue => some { s with queue, consumer := .holding pending }
    | .holding pending, nxt :: queue => some
      { s with
        queue
        consumer := .yielding nxt
        yielded := s.yielded ++ [spec.chunk s.yielded.length pending nxt.isNone] }
    | _, _ => none
  | .ask =>
    match s.consumer with
    | .yielding (some pending) => some { s with consumer := .holding pending }
    | .yielding none => some { s with consumer := .joining }
    | _ => none
  | .join =>
    match s.consumer, s.future with
    | .joining, some result => some { s with consumer := .ended result }
    | _, _ => none

/-- The thread and the generator take turns in any order. -/
def streaming (spec : PhraseSpec) (synthesis : Synthesis ε) : Machine (Streaming ε) Turn where
  start := ⟨.posting synthesis.pieces, [], [], none, .first, []⟩
  step := Streaming.step spec synthesis.error

/-! ## What a turn does -/

/-- The turns that can be taken, by what they find. -/
inductive Turned (spec : PhraseSpec) (error : Option ε) (s : Streaming ε) : Streaming ε → Prop
  | posts {piece : List UInt8} {rest : List (List UInt8)}
      (hproducer : s.producer = .posting (piece :: rest)) : Turned spec error s
        { s with producer := .posting rest, posted := s.posted ++ [.put (some piece)] }
  | finishes (hproducer : s.producer = .posting []) : Turned spec error s
      { s with producer := .ending, posted := s.posted ++ [.put none] }
  | completes (hproducer : s.producer = .ending) : Turned spec error s
      { s with producer := .done, posted := s.posted ++ [.resolve error] }
  | puts {item : Option (List UInt8)} {posted : List (Callback ε)}
      (hposted : s.posted = .put item :: posted) : Turned spec error s
        { s with posted, queue := s.queue ++ [item] }
  | resolves {result : Option ε} {posted : List (Callback ε)}
      (hposted : s.posted = .resolve result :: posted) : Turned spec error s
        { s with posted, future := some result }
  | finds {queue : List (Option (List UInt8))} {item : Option (List UInt8)}
      (hconsumer : s.consumer = .first) (hqueue : s.queue = item :: queue) : Turned spec error s
        { s with
          queue
          consumer := match item with
            | none => .joining
            | some pending => .holding pending }
  | yields {pending : List UInt8} {nxt : Option (List UInt8)} {queue : List (Option (List UInt8))}
      (hconsumer : s.consumer = .holding pending) (hqueue : s.queue = nxt :: queue) :
      Turned spec error s
        { s with
          queue
          consumer := .yielding nxt
          yielded := s.yielded ++ [spec.chunk s.yielded.length pending nxt.isNone] }
  | asks {nxt : Option (List UInt8)} (hconsumer : s.consumer = .yielding nxt) : Turned spec error s
      { s with
        consumer := match nxt with
          | none => .joining
          | some pending => .holding pending }
  | joins {result : Option ε} (hconsumer : s.consumer = .joining)
      (hfuture : s.future = some result) : Turned spec error s
        { s with consumer := .ended result }

variable {spec : PhraseSpec} {synthesis : Synthesis ε} {error : Option ε} {s t : Streaming ε}

theorem step_turned {turn : Turn} (h : s.step spec error turn = some t) :
    Turned spec error s t := by
  cases turn with
  | post =>
    simp only [Streaming.step] at h
    split at h
    · rename_i piece rest hproducer
      cases h
      exact .posts hproducer
    · cases h
  | finish =>
    simp only [Streaming.step] at h
    split at h
    · rename_i hproducer
      cases h
      exact .finishes hproducer
    · cases h
  | complete =>
    simp only [Streaming.step] at h
    split at h
    · rename_i hproducer
      cases h
      exact .completes hproducer
    · cases h
  | callback =>
    simp only [Streaming.step] at h
    split at h
    · rename_i item posted hposted
      cases h
      exact .puts hposted
    · rename_i result posted hposted
      cases h
      exact .resolves hposted
    · cases h
  | get =>
    simp only [Streaming.step] at h
    split at h
    · rename_i queue hconsumer hqueue
      cases h
      exact .finds hconsumer hqueue
    · rename_i pending queue hconsumer hqueue
      cases h
      exact .finds hconsumer hqueue
    · rename_i pending nxt queue hconsumer hqueue
      cases h
      exact .yields hconsumer hqueue
    · cases h
  | ask =>
    simp only [Streaming.step] at h
    split at h
    · rename_i pending hconsumer
      cases h
      exact .asks hconsumer
    · rename_i hconsumer
      cases h
      exact .asks hconsumer
    · cases h
  | join =>
    simp only [Streaming.step] at h
    split at h
    · rename_i result hconsumer hfuture
      cases h
      exact .joins hconsumer hfuture
    · cases h

/-! ## Every piece once, in order -/

/-- The items that a producer still posts. -/
def Producer.items : Producer → List (Option (List UInt8))
  | .posting pieces => pieces.map some ++ [none]
  | _ => []

def Callback.items : Callback ε → List (Option (List UInt8))
  | .put item => [item]
  | .resolve _ => []

/-- The item that the generator looked at last, and did not yield. -/
def Consumer.items : Consumer ε → List (Option (List UInt8))
  | .first => []
  | .holding pending => [some pending]
  | .yielding nxt => [nxt]
  | .joining | .ended _ => [none]

/-- All items, from those that were yielded to those that are not posted yet. -/
def Streaming.items (s : Streaming ε) : List (Option (List UInt8)) :=
  s.yielded.map (fun chunk => some chunk.pcm) ++ (s.consumer.items ++
    (s.queue ++ (s.posted.flatMap Callback.items ++ s.producer.items)))

/-- A turn moves an item on, and neither loses one nor changes the order. -/
theorem items_turned (hturn : Turned spec error s t) : t.items = s.items := by
  unfold Streaming.items
  cases hturn with
  | posts hproducer => simp [hproducer, Producer.items, Callback.items]
  | finishes hproducer => simp [hproducer, Producer.items, Callback.items]
  | completes hproducer => simp [hproducer, Producer.items, Callback.items]
  | puts hposted => simp [hposted, Callback.items]
  | resolves hposted => simp [hposted, Callback.items]
  | @finds queue item hconsumer hqueue =>
    cases item with
    | none => simp [hconsumer, hqueue, Consumer.items]
    | some pending => simp [hconsumer, hqueue, Consumer.items]
  | yields hconsumer hqueue => simp [hconsumer, hqueue, Consumer.items, PhraseSpec.chunk]
  | @asks nxt hconsumer =>
    cases nxt with
    | none => simp [hconsumer, Consumer.items]
    | some pending => simp [hconsumer, Consumer.items]
  | joins hconsumer hfuture => simp [hconsumer, Consumer.items]

/-- What comes before the end of the stream is all of the pieces. -/
theorem eq_of_end {xs pieces : List (List UInt8)} {rest : List (Option (List UInt8))}
    (h : xs.map some ++ none :: rest = pieces.map some ++ [none]) : xs = pieces ∧ rest = [] := by
  induction xs generalizing pieces with
  | nil =>
    cases pieces with
    | nil => simpa using h
    | cons piece pieces => simp at h
  | cons x xs ih =>
    cases pieces with
    | nil => simp at h
    | cons piece pieces =>
      simp only [List.map_cons, List.cons_append, List.cons.injEq, Option.some.injEq] at h
      obtain ⟨rfl, hrest⟩ := ih h.2
      exact ⟨by rw [h.1], hrest⟩

/-! ## The last chunk and the result -/

/-- The generator saw the end of the stream. -/
def Consumer.past : Consumer ε → Bool
  | .yielding none | .joining | .ended _ => true
  | _ => false

/-- The last chunk is marked when the generator saw the end, and no other chunk
is. The result of the thread is that of the synthesis. -/
structure Sound (spec : PhraseSpec) (error : Option ε) (s : Streaming ε) : Prop where
  first : s.consumer = .first → s.yielded = []
  marked : s.yielded.filter (·.is_last) = if s.consumer.past then s.yielded.getLast?.toList else []
  same : ∀ chunk ∈ s.yielded, chunk.sample_rate = spec.sample_rate ∧
    chunk.language = spec.language ∧ chunk.chunk_id = spec.chunk_id
  posted : ∀ result, .resolve result ∈ s.posted → result = error
  future : ∀ result, s.future = some result → result = error
  ended : ∀ result, s.consumer = .ended result → result = error
  resolved : s.producer = .done → s.future = none → .resolve error ∈ s.posted

theorem sound_turned (h : Sound spec error s) (hturn : Turned spec error s t) :
    Sound spec error t := by
  cases hturn with
  | posts hproducer =>
    refine ⟨h.first, h.marked, h.same, ?_, h.future, h.ended, nofun⟩
    intro result hresult
    exact h.posted result (by simpa using hresult)
  | finishes hproducer =>
    refine ⟨h.first, h.marked, h.same, ?_, h.future, h.ended, nofun⟩
    intro result hresult
    exact h.posted result (by simpa using hresult)
  | completes hproducer =>
    refine ⟨h.first, h.marked, h.same, ?_, h.future, h.ended, fun _ _ => by simp⟩
    intro result hresult
    rcases List.mem_append.mp hresult with hresult | hresult
    · exact h.posted result hresult
    · exact Callback.resolve.inj (List.mem_singleton.mp hresult)
  | puts hposted =>
    refine ⟨h.first, h.marked, h.same, ?_, h.future, h.ended, ?_⟩
    · intro result hresult
      exact h.posted result (hposted ▸ List.mem_cons_of_mem _ hresult)
    · intro hdone hnone
      have hmem := h.resolved hdone hnone
      rw [hposted] at hmem
      simpa using hmem
  | @resolves result posted hposted =>
    have herror : result = error := h.posted result (hposted ▸ List.mem_cons_self)
    refine ⟨h.first, h.marked, h.same, ?_, ?_, h.ended, nofun⟩
    · intro result' hresult
      exact h.posted result' (hposted ▸ List.mem_cons_of_mem _ hresult)
    · intro result' hresult
      cases hresult
      exact herror
  | @finds queue item hconsumer hqueue =>
    have hnil := h.first hconsumer
    refine ⟨fun _ => hnil, ?_, h.same, h.posted, h.future, ?_, h.resolved⟩
    · simp [hnil]
    · intro result hresult
      cases item <;> cases hresult
  | @yields pending nxt queue hconsumer hqueue =>
    have hmarked := h.marked
    rw [hconsumer] at hmarked
    refine ⟨nofun, ?_, ?_, h.posted, h.future, nofun, h.resolved⟩
    · rw [List.filter_append, hmarked]
      cases nxt with
      | none => simp [Consumer.past, PhraseSpec.chunk]
      | some next => simp [Consumer.past, PhraseSpec.chunk]
    · intro chunk hchunk
      rcases List.mem_append.mp hchunk with hchunk | hchunk
      · exact h.same chunk hchunk
      · rw [List.mem_singleton.mp hchunk]
        exact ⟨rfl, rfl, rfl⟩
  | @asks nxt hconsumer =>
    have hmarked := h.marked
    rw [hconsumer] at hmarked
    refine ⟨?_, ?_, h.same, h.posted, h.future, ?_, h.resolved⟩
    · intro hfirst
      cases nxt <;> cases hfirst
    · cases nxt <;> exact hmarked
    · intro result hresult
      cases nxt <;> cases hresult
  | @joins result hconsumer hfuture =>
    have hmarked := h.marked
    rw [hconsumer] at hmarked
    refine ⟨nofun, hmarked, h.same, h.posted, h.future, ?_, h.resolved⟩
    intro result' hresult
    cases hresult
    exact h.future result hfuture

/-! ## The end of a run -/

def Producer.left : Producer → Nat
  | .posting pieces => 4 * pieces.length + 6
  | .ending => 2
  | .done => 0

def Callback.left : Callback ε → Nat
  | .put _ => 3
  | .resolve _ => 1

def Consumer.left : Consumer ε → Nat
  | .yielding _ => 2
  | .ended _ => 0
  | _ => 1

/-- A bound on the turns that are left: an item is posted, put, got and asked on. -/
def Streaming.left (s : Streaming ε) : Nat :=
  s.producer.left + (s.posted.map Callback.left).sum + 2 * s.queue.length + s.consumer.left

theorem left_turned (hturn : Turned spec error s t) : t.left < s.left := by
  unfold Streaming.left
  cases hturn with
  | posts hproducer =>
    simp only [hproducer, Producer.left, Callback.left, List.map_append, List.sum_append,
      List.map_cons, List.map_nil, List.sum_cons, List.sum_nil, List.length_cons]
    omega
  | finishes hproducer =>
    simp only [hproducer, Producer.left, Callback.left, List.map_append, List.sum_append,
      List.map_cons, List.map_nil, List.sum_cons, List.sum_nil, List.length_nil]
    omega
  | completes hproducer =>
    simp only [hproducer, Producer.left, Callback.left, List.map_append, List.sum_append,
      List.map_cons, List.map_nil, List.sum_cons, List.sum_nil]
    omega
  | puts hposted =>
    simp only [hposted, Callback.left, List.map_cons, List.sum_cons, List.length_append,
      List.length_singleton]
    omega
  | resolves hposted =>
    simp only [hposted, Callback.left, List.map_cons, List.sum_cons]
    omega
  | @finds queue item hconsumer hqueue =>
    cases item <;> simp only [hconsumer, hqueue, Consumer.left, List.length_cons] <;> omega
  | yields hconsumer hqueue =>
    simp only [hconsumer, hqueue, Consumer.left, List.length_cons]
    omega
  | @asks nxt hconsumer =>
    cases nxt <;> simp only [hconsumer, Consumer.left] <;> omega
  | joins hconsumer hfuture =>
    simp only [hconsumer, Consumer.left]
    omega

/-- Until the generator is at its end, somebody has a turn. -/
theorem exists_turn {pieces : List (List UInt8)} (h : Sound spec error s)
    (hitems : s.items = pieces.map some ++ [none]) (hopen : ∀ result, s.consumer ≠ .ended result) :
    ∃ turn t, s.step spec error turn = some t := by
  cases hposted : s.posted with
  | cons callback posted =>
    refine ⟨.callback, ?_⟩
    cases callback <;> simp [Streaming.step, hposted]
  | nil =>
    cases hproducer : s.producer with
    | posting todo =>
      cases todo with
      | nil =>
        refine ⟨.finish, ?_⟩
        simp [Streaming.step, hproducer]
      | cons piece rest =>
        refine ⟨.post, ?_⟩
        simp [Streaming.step, hproducer]
    | ending =>
      refine ⟨.complete, ?_⟩
      simp [Streaming.step, hproducer]
    | done =>
      -- all was posted and put, so the queue holds what the generator waits for
      have hqueue : (s.yielded.map fun chunk => some chunk.pcm) ++ (s.consumer.items ++ s.queue) =
          pieces.map some ++ [none] := by
        rw [← hitems, Streaming.items, hposted, hproducer]
        simp [Producer.items]
      cases hconsumer : s.consumer with
      | first =>
        cases hitem : s.queue with
        | nil =>
          rw [hconsumer, hitem, h.first hconsumer] at hqueue
          simp [Consumer.items] at hqueue
        | cons item queue =>
          refine ⟨.get, ?_⟩
          cases item <;> simp [Streaming.step, hconsumer, hitem]
      | holding pending =>
        cases hitem : s.queue with
        | nil =>
          rw [hconsumer, hitem, List.append_nil] at hqueue
          exact absurd (List.append_inj' hqueue rfl).2 (by simp [Consumer.items])
        | cons item queue =>
          refine ⟨.get, ?_⟩
          simp [Streaming.step, hconsumer, hitem]
      | yielding nxt =>
        refine ⟨.ask, ?_⟩
        cases nxt <;> simp [Streaming.step, hconsumer]
      | joining =>
        cases hfuture : s.future with
        | none =>
          have hmem := h.resolved hproducer hfuture
          rw [hposted] at hmem
          cases hmem
        | some result =>
          refine ⟨.join, ?_⟩
          simp [Streaming.step, hconsumer, hfuture]
      | ended result => exact absurd hconsumer (hopen result)

/-! ## The whole stream -/

theorem prefix_of_items {xs pieces : List (List UInt8)} {rest : List (Option (List UInt8))}
    (h : xs.map some ++ rest = pieces.map some ++ [none]) : xs <+: pieces := by
  induction xs generalizing pieces with
  | nil => exact List.nil_prefix
  | cons x xs ih =>
    cases pieces with
    | nil => simp at h
    | cons piece pieces =>
      simp only [List.map_cons, List.cons_append, List.cons.injEq, Option.some.injEq] at h
      rw [h.1]
      exact List.prefix_cons_inj piece |>.mpr (ih h.2)

theorem sound_start (spec : PhraseSpec) (synthesis : Synthesis ε) :
    Sound spec synthesis.error (streaming spec synthesis).start := by
  refine ⟨fun _ => rfl, rfl, ?_, ?_, nofun, nofun, nofun⟩
  · intro chunk hchunk
    cases hchunk
  · intro result hresult
    cases hresult

theorem sound_run {turns : List Turn} (hrun : (streaming spec synthesis).run turns = some s) :
    Sound spec synthesis.error s ∧ s.items = synthesis.pieces.map some ++ [none] := by
  refine (streaming spec synthesis).invariant (P := fun s => Sound spec synthesis.error s ∧
    s.items = synthesis.pieces.map some ++ [none]) ⟨sound_start spec synthesis, rfl⟩ ?_ ⟨turns, hrun⟩
  intro s turn t hs hstep
  have hturned := step_turned hstep
  exact ⟨sound_turned hs.1 hturned, (items_turned hturned).trans hs.2⟩

/-- A voice is loaded with the sample rate of the session. -/
theorem sample_rate_new {languages : List String} {voice_root : String}
    {voices : Option (OrderedDict String String)} {files : String → Option (PiperVoice ε)}
    {a : PiperTtsAdapter ε} (hnew : PiperTtsAdapter.new languages voice_root voices files = .ok a)
    {language : String} {voice : PiperVoice ε} (hvoice : a.voices.get? language = some voice) :
    a.sample_rate = some voice.sample_rate := by
  refine foldlM_induction (P := fun _ (a : PiperTtsAdapter ε) => ∀ language voice,
    a.voices.get? language = some voice → a.sample_rate = some voice.sample_rate) ?_ ?_ hnew
    language voice hvoice
  · intro _ a added b ha hload language voice hvoice
    unfold PiperTtsAdapter.load at hload
    split at hload
    · cases hload
    · simp only at hload
      split at hload
      · cases hload
      · rename_i loaded _
        have hold : ∀ rate, a.sample_rate = some rate → language ≠ added →
            (a.voices.set added loaded).get? language = some voice → rate = voice.sample_rate := by
          intro rate hrate hne hget
          rw [OrderedDict.get?_set, if_neg hne] at hget
          exact Option.some.inj (hrate.symm.trans (ha language voice hget))
        split at hload
        · rename_i hnone
          cases hload
          by_cases hadded : language = added
          · rw [OrderedDict.get?_set, if_pos hadded] at hvoice
            rw [Option.some.inj hvoice]
          · rw [OrderedDict.get?_set, if_neg hadded] at hvoice
            rw [ha language voice hvoice] at hnone
            cases hnone
        · rename_i session hsession
          split at hload
          · rename_i hrate
            cases hload
            by_cases hadded : language = added
            · rw [OrderedDict.get?_set, if_pos hadded] at hvoice
              rw [← Option.some.inj hvoice, hrate]
            · rw [hold session hsession hadded hvoice]
          · cases hload
  · intro language voice hvoice
    cases hvoice

/-- Over every order of turns, a phrase in a loaded language is streamed to its
end. The chunks are the pieces, in order and each once. The last chunk is marked
and no other one. The stream ends with the error of the synthesis, if it has one. -/
theorem the_pieces_are_streamed_in_order {ε : Type} (languages : List String) (voice_root : String)
    (voices : Option (OrderedDict String String)) (files : String → Option (PiperVoice ε))
    (a : PiperTtsAdapter ε) (hnew : PiperTtsAdapter.new languages voice_root voices files = .ok a)
    (text : String) (htext : strip text ≠ "") (voice : VoiceSpec)
    (hsupports : a.supports voice.language = true) (chunk_id : Nat) (now : Nat → ℚ) :
    ∃ synthesis rate, a.opening text voice = .ok (some synthesis) ∧ a.sample_rate = some rate ∧
    ∀ turns s, (streaming ⟨rate, voice.language, chunk_id, now⟩ synthesis).run turns = some s →
      turns.length ≤ 4 * synthesis.pieces.length + 7 ∧
      ((∃ result, s.consumer = .ended result) ∨ ∃ turn t,
        (streaming ⟨rate, voice.language, chunk_id, now⟩ synthesis).step s turn = some t) ∧
      s.yielded.map (·.pcm) <+: synthesis.pieces ∧
      (∀ chunk ∈ s.yielded, chunk.sample_rate = rate ∧ chunk.language = voice.language ∧
        chunk.chunk_id = chunk_id) ∧
      ∀ result, s.consumer = .ended result → result = synthesis.error ∧
        s.yielded.map (·.pcm) = synthesis.pieces ∧
        s.yielded.filter (·.is_last) = s.yielded.getLast?.toList := by
  obtain ⟨loaded, hloaded⟩ := Option.isSome_iff_exists.mp hsupports
  refine ⟨loaded.synthesize text (if voice.speed > 0 then 1 / voice.speed else 1),
    loaded.sample_rate, ?_, sample_rate_new hnew hloaded, ?_⟩
  · rw [PiperTtsAdapter.opening, hloaded]
    simp only [htext, if_false]
    rfl
  · generalize loaded.synthesize text _ = synthesis
    intro turns s hrun
    obtain ⟨hsound, hitems⟩ := sound_run hrun
    have hpieces : (s.yielded.map (·.pcm)).map some ++ (s.consumer.items ++
        (s.queue ++ (s.posted.flatMap Callback.items ++ s.producer.items))) =
        synthesis.pieces.map some ++ [none] := by
      rw [← hitems, List.map_map]
      rfl
    refine ⟨?_, ?_, prefix_of_items hpieces, hsound.same, ?_⟩
    · have hle := Machine.length_le_of_measure (streaming _ synthesis) (P := fun _ => True)
        Streaming.left (fun _ _ _ _ _ => trivial)
        (fun _ _ _ _ hstep => left_turned (step_turned hstep)) trivial hrun
      have hstart : (streaming ⟨loaded.sample_rate, voice.language, chunk_id, now⟩
          synthesis).start.left = 4 * synthesis.pieces.length + 7 := rfl
      omega
    · by_cases hended : ∃ result, s.consumer = .ended result
      · exact .inl hended
      · exact .inr (exists_turn hsound hitems (not_exists.mp hended))
    · intro result hconsumer
      rw [hconsumer] at hpieces
      have hmarked := hsound.marked
      rw [hconsumer] at hmarked
      exact ⟨hsound.ended result hconsumer, (eq_of_end hpieces).1, hmarked⟩

/-- A voice that dies after two pieces. -/
def breakingVoice : PiperVoice String where
  sample_rate := 22050
  synthesize _ _ := ⟨[[1, 0], [2, 0]], some "onnxruntime error"⟩

def frenchVoices (path : String) : Option (PiperVoice String) :=
  if path = "models/tts/fr_FR-siwis-medium.onnx" then some breakingVoice else none

def french : VoiceSpec := ⟨"fr", "fr_FR-siwis-medium", 1⟩

theorem frenchVoices_loaded :
    (PiperTtsAdapter.new ["fr"] "models/tts" none frenchVoices).toOption.map (fun a =>
      (a.supports "fr", a.sample_rate,
        (a.opening "bonjour." french).toOption.join.map fun synthesis => synthesis.pieces)) =
      some (true, some 22050, some [[1, 0], [2, 0]]) := by
  decide +kernel

/-- The thread runs to its end before the generator gets anything. -/
example :
    ((streaming ⟨22050, "fr", 7, fun _ => 0⟩ (breakingVoice.synthesize "bonjour." 1)).run
      [.post, .post, .finish, .complete, .callback, .callback, .callback, .callback,
        .get, .get, .ask, .get, .ask, .join]).map (fun s =>
      (s.yielded.map (fun chunk => (chunk.pcm, chunk.is_last)), s.consumer)) =
      some ([([1, 0], false), ([2, 0], true)], .ended (some "onnxruntime error")) := by
  decide +kernel

theorem the_pieces_are_streamed_in_order_before_an_error :
    ∃ a synthesis, PiperTtsAdapter.new ["fr"] "models/tts" none frenchVoices = .ok a ∧
      a.opening "bonjour." french = .ok (some synthesis) ∧ synthesis.pieces = [[1, 0], [2, 0]] ∧
      ∀ turns s, (streaming ⟨22050, "fr", 7, fun _ => 0⟩ synthesis).run turns = some s →
        ∀ result, s.consumer = .ended result →
          result = synthesis.error ∧ s.yielded.map (·.pcm) = synthesis.pieces := by
  obtain ⟨a, ha, h⟩ := Option.map_eq_some_iff.mp frenchVoices_loaded
  obtain ⟨hsupports, hrate, hpieces⟩ := by simpa only [Prod.mk.injEq] using h
  rw [toOption_eq_some] at ha
  obtain ⟨synthesis, rate, hopening, hrate', hruns⟩ := the_pieces_are_streamed_in_order ["fr"]
    "models/tts" none frenchVoices a ha "bonjour." (by decide +kernel) french hsupports 7 fun _ => 0
  rw [hrate, Option.some.injEq] at hrate'
  subst hrate'
  rw [hopening] at hpieces
  refine ⟨a, synthesis, ha, hopening, Option.some.inj hpieces, ?_⟩
  intro turns t hrun result hconsumer
  obtain ⟨herror, hpieces, -⟩ := (hruns turns t hrun).2.2.2.2 result hconsumer
  exact ⟨herror, hpieces⟩
end lad_translate.tts_piper
