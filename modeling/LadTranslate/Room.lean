-- LiveKit room transport (session/room.py): the language tracks of a room, and
-- the queue of audio that each of them has still to play. The audio source of
-- the SDK is a parameter. The log lines are left out.
import LadTranslate.Audio
import LadTranslate.OrderedDicts
import LadTranslate.Text

open ordered_dicts

namespace lad_translate.room

open phrase_chunker (reprText)

def SPEECH_BITRATE : Nat := 32000

def SPEECH_RED : Bool := true

def PLAYOUT_QUEUE_MS : Nat := 12000

/-- A block of PCM audio, as the SDK takes it. -/
structure RtcFrame where
  data : List UInt8
  sample_rate : Nat
  num_channels : Nat
  samples_per_channel : Nat
deriving DecidableEq

def RtcFrame.seconds (frame : RtcFrame) : ℚ := (frame.samples_per_channel : ℚ) / frame.sample_rate

theorem RtcFrame.seconds_nonneg (frame : RtcFrame) : 0 ≤ frame.seconds := by
  unfold RtcFrame.seconds
  positivity

/-- The audio source of the SDK, and what the transport relies on. It paces
itself: a block waits until the queue has room for it, and what waits in the
queue is played. A `Turn` is all else that decides what a call does. -/
structure AudioSdk (ε : Type) where
  Source : Type
  Turn : Type
  /-- `AudioSource(sample_rate, num_channels, queue_size_ms)`. -/
  audioSource : Nat → Nat → Nat → Source
  queue_size_ms : Source → Nat
  queued_duration : Source → ℚ
  /-- `capture_frame`: nothing while it waits, else the source, and what it raised. -/
  capture_frame : Turn → Source → RtcFrame → Option (Source × Option ε)
  aclose : Source → Source
  /-- Time passes. -/
  plays : Turn → Source → Source
  queue_size_audioSource : ∀ rate channels ms, queue_size_ms (audioSource rate channels ms) = ms
  queued_audioSource : ∀ rate channels ms, queued_duration (audioSource rate channels ms) = 0
  capture_size : ∀ {turn source frame source' raised},
    capture_frame turn source frame = some (source', raised) →
      queue_size_ms source' = queue_size_ms source
  /-- A block adds at most its own seconds. -/
  capture_le : ∀ {turn source frame source' raised},
    capture_frame turn source frame = some (source', raised) →
      queued_duration source' ≤ queued_duration source + frame.seconds
  /-- A block waits only for a queue that has no room for it. -/
  capture_waits : ∀ {turn source frame}, capture_frame turn source frame = none →
    (queue_size_ms source : ℚ) / 1000 < queued_duration source + frame.seconds
  aclose_size : ∀ source, queue_size_ms (aclose source) = queue_size_ms source
  aclose_le : ∀ source, queued_duration (aclose source) ≤ queued_duration source
  plays_size : ∀ turn source, queue_size_ms (plays turn source) = queue_size_ms source
  plays_le : ∀ turn source, queued_duration (plays turn source) ≤ queued_duration source

/-- How a language track is published. -/
structure TrackPublishOptions where
  max_bitrate : Nat
  dtx : Bool
  red : Bool
deriving DecidableEq

/-- What a publication needs: the name of its track, and the options. -/
structure Publication where
  name : String
  options : TrackPublishOptions
deriving DecidableEq

section

variable {ε : Type} (sdk : AudioSdk ε)

structure LanguageTrack where
  language : String
  source : sdk.Source
  publication : Publication
  frames_published : Nat := 0
  seconds_published : ℚ := 0

/-- The tracks of a room. The SDK opens no source without a rate or without a
channel. -/
structure TranslationRoom where
  sample_rate : Nat
  num_channels : Nat
  tracks : OrderedDict String (LanguageTrack sdk)
  closing : Bool
  sample_rate_pos : 0 < sample_rate
  num_channels_pos : 0 < num_channels

/-- What `push` raises: a `KeyError`, a `ValueError`, or what the SDK raised. -/
inductive PushError (ε : Type)
  | keyError (text : String)
  | valueError (text : String)
  | sdk (raised : ε)
deriving DecidableEq

end

namespace TranslationRoom

variable {ε : Type} {sdk : AudioSdk ε}

/-- A room without tracks. -/
def new (sdk : AudioSdk ε) (sample_rate num_channels : Nat) (sample_rate_pos : 0 < sample_rate)
    (num_channels_pos : 0 < num_channels) : TranslationRoom sdk where
  sample_rate := sample_rate
  num_channels := num_channels
  tracks := .empty
  closing := false
  sample_rate_pos := sample_rate_pos
  num_channels_pos := num_channels_pos

/-- `self._tracks[language] = entry`. -/
def setTrack (room : TranslationRoom sdk) (language : String) (entry : LanguageTrack sdk) :
    TranslationRoom sdk :=
  { room with tracks := room.tracks.set language entry }

/-- The track that one turn of `publish_languages` publishes. -/
def newTrack (room : TranslationRoom sdk) (language : String) : LanguageTrack sdk where
  language := language
  source := sdk.audioSource room.sample_rate room.num_channels PLAYOUT_QUEUE_MS
  publication := ⟨"lang-" ++ language, ⟨SPEECH_BITRATE, true, SPEECH_RED⟩⟩

/-- `publish_languages`: a track for each language, up to the first that the SDK
refuses. -/
def publishLanguages (refusal : String → Option ε) :
    List String → TranslationRoom sdk → TranslationRoom sdk × Option ε
  | [], room => (room, none)
  | language :: languages, room =>
    match refusal language with
    | some raised => (room, some raised)
    | none => publishLanguages refusal languages (room.setTrack language (room.newTrack language))

/-- The block that `push` makes of the bytes. -/
def frameOf (room : TranslationRoom sdk) (pcm : List UInt8) (sample_rate : Nat) : RtcFrame :=
  ⟨pcm, sample_rate, room.num_channels, pcm.length / 2 / room.num_channels⟩

/-- `push`: nothing while it waits, else the room, and what it raised. -/
def push (turn : sdk.Turn) (room : TranslationRoom sdk) (language : String) (pcm : List UInt8)
    (sample_rate : Nat) : Option (TranslationRoom sdk × Option (PushError ε)) :=
  match room.tracks.get? language with
  | none => some (room, some (.keyError ("no published track for " ++ reprText language)))
  | some entry =>
    if sample_rate ≠ room.sample_rate then
      some (room, some (.valueError (language ++ " audio is " ++ toString sample_rate ++
        "Hz but the track is " ++ toString room.sample_rate ++ "Hz; resample before publishing")))
    else
      let frame := room.frameOf pcm sample_rate
      if frame.samples_per_channel = 0 then some (room, none)
      else
        match sdk.capture_frame turn entry.source frame with
        | none => none
        | some (source, some raised) =>
          some (room.setTrack language { entry with source }, some (.sdk raised))
        | some (source, none) =>
          some (room.setTrack language { entry with
            source
            frames_published := entry.frames_published + 1
            seconds_published := entry.seconds_published + frame.seconds }, none)

/-- `queue_depth`: seconds of audio synthesised but not yet spoken. -/
def queueDepth (room : TranslationRoom sdk) (language : String) : ℚ :=
  match room.tracks.get? language with
  | some entry => sdk.queued_duration entry.source
  | none => 0

/-- What one call does to the source of a language, if it has one. -/
def changeSource (room : TranslationRoom sdk) (language : String) (f : sdk.Source → sdk.Source) :
    TranslationRoom sdk :=
  match room.tracks.get? language with
  | some entry => room.setTrack language { entry with source := f entry.source }
  | none => room

/-- Time passes for one language. -/
def plays (turn : sdk.Turn) (room : TranslationRoom sdk) (language : String) :
    TranslationRoom sdk :=
  room.changeSource language (sdk.plays turn)

def languages (room : TranslationRoom sdk) : List String := room.tracks.keys

/-- `close`: each source is closed. -/
def close (room : TranslationRoom sdk) : TranslationRoom sdk :=
  room.languages.foldl (fun room language => room.changeSource language sdk.aclose)
    { room with closing := true }

/-! ## The tracks after each operation -/

variable {room : TranslationRoom sdk} {language l : String}

@[simp] theorem get?_setTrack (room : TranslationRoom sdk) (language l : String)
    (entry : LanguageTrack sdk) :
    (room.setTrack language entry).tracks.get? l =
      if l = language then some entry else room.tracks.get? l :=
  OrderedDict.get?_set _ _ _ _

@[simp] theorem setTrack_sample_rate (room : TranslationRoom sdk) (language : String)
    (entry : LanguageTrack sdk) : (room.setTrack language entry).sample_rate = room.sample_rate :=
  rfl

@[simp] theorem setTrack_num_channels (room : TranslationRoom sdk) (language : String)
    (entry : LanguageTrack sdk) : (room.setTrack language entry).num_channels = room.num_channels :=
  rfl

/-- What `push` does. -/
inductive Pushed (turn : sdk.Turn) (room : TranslationRoom sdk) (language : String)
    (pcm : List UInt8) (sample_rate : Nat) : TranslationRoom sdk → Option (PushError ε) → Prop
  | refused {error : PushError ε} (hnot : room.tracks.get? language = none ∨
      sample_rate ≠ room.sample_rate) :
      Pushed turn room language pcm sample_rate room (some error)
  | nothing {entry : LanguageTrack sdk} (hentry : room.tracks.get? language = some entry)
      (hrate : sample_rate = room.sample_rate)
      (hnone : (room.frameOf pcm sample_rate).samples_per_channel = 0) :
      Pushed turn room language pcm sample_rate room none
  | raised {entry : LanguageTrack sdk} {source : sdk.Source} {raised : ε}
      (hentry : room.tracks.get? language = some entry)
      (hcapture : sdk.capture_frame turn entry.source (room.frameOf pcm sample_rate) =
        some (source, some raised)) :
      Pushed turn room language pcm sample_rate (room.setTrack language { entry with source })
        (some (.sdk raised))
  | taken {entry : LanguageTrack sdk} {source : sdk.Source}
      (hentry : room.tracks.get? language = some entry) (hrate : sample_rate = room.sample_rate)
      (hsome : (room.frameOf pcm sample_rate).samples_per_channel ≠ 0)
      (hcapture : sdk.capture_frame turn entry.source (room.frameOf pcm sample_rate) =
        some (source, none)) :
      Pushed turn room language pcm sample_rate (room.setTrack language { entry with
        source
        frames_published := entry.frames_published + 1
        seconds_published := entry.seconds_published + (room.frameOf pcm sample_rate).seconds })
        none

theorem push_cases {turn : sdk.Turn} {pcm : List UInt8} {sample_rate : Nat}
    {room' : TranslationRoom sdk} {error : Option (PushError ε)}
    (h : room.push turn language pcm sample_rate = some (room', error)) :
    Pushed turn room language pcm sample_rate room' error := by
  unfold push at h
  split at h
  · rename_i hnone
    cases h
    exact .refused (.inl hnone)
  · rename_i entry hentry
    split at h
    · rename_i hrate
      cases h
      exact .refused (.inr hrate)
    · rename_i hrate
      simp only at h
      split at h
      · rename_i hnone
        cases h
        exact .nothing hentry (not_not.mp hrate) hnone
      · rename_i hsome
        split at h
        · cases h
        · rename_i source raised hcapture
          cases h
          exact .raised hentry hcapture
        · rename_i source hcapture
          cases h
          exact .taken hentry (not_not.mp hrate) hsome hcapture

/-- `push` waits only for the SDK, which has no room for the block. -/
theorem push_none {turn : sdk.Turn} {pcm : List UInt8} {sample_rate : Nat}
    (h : room.push turn language pcm sample_rate = none) :
    ∃ entry, room.tracks.get? language = some entry ∧
      sdk.capture_frame turn entry.source (room.frameOf pcm sample_rate) = none := by
  unfold push at h
  split at h
  · cases h
  · rename_i entry hentry
    split at h
    · cases h
    · simp only at h
      split at h
      · cases h
      · split at h
        · rename_i hcapture
          exact ⟨entry, hentry, hcapture⟩
        · cases h
        · cases h

theorem queueDepth_eq {entry : LanguageTrack sdk} (h : room.tracks.get? language = some entry) :
    room.queueDepth language = sdk.queued_duration entry.source := by
  rw [queueDepth, h]

theorem get?_changeSource (room : TranslationRoom sdk) (language l : String)
    (f : sdk.Source → sdk.Source) :
    (room.changeSource language f).tracks.get? l =
      (room.tracks.get? l).map fun entry =>
        if l = language then { entry with source := f entry.source } else entry := by
  unfold changeSource
  split
  · rename_i entry hentry
    rw [get?_setTrack]
    by_cases hl : l = language
    · rw [if_pos hl, hl, hentry]
      simp
    · simp [hl]
  · rename_i hnone
    by_cases hl : l = language
    · rw [hl, hnone]
      rfl
    · simp [hl]

/-! ## Calls that add nothing to a queue -/

/-- The second room has the tracks of the first, each with a source that has no
more to play. -/
structure Quieter (room room' : TranslationRoom sdk) : Prop where
  sample_rate : room'.sample_rate = room.sample_rate
  num_channels : room'.num_channels = room.num_channels
  tracks : ∀ l, (room.tracks.get? l = none ∧ room'.tracks.get? l = none) ∨
    ∃ entry source, room.tracks.get? l = some entry ∧
      room'.tracks.get? l = some { entry with source } ∧
      sdk.queue_size_ms source = sdk.queue_size_ms entry.source ∧
      sdk.queued_duration source ≤ sdk.queued_duration entry.source

theorem Quieter.refl (room : TranslationRoom sdk) : Quieter room room := by
  refine ⟨rfl, rfl, fun l => ?_⟩
  cases hl : room.tracks.get? l with
  | none => exact .inl ⟨rfl, rfl⟩
  | some entry => exact .inr ⟨entry, entry.source, rfl, rfl, rfl, le_rfl⟩

theorem Quieter.trans {room₁ room₂ room₃ : TranslationRoom sdk} (h : Quieter room₁ room₂)
    (h' : Quieter room₂ room₃) : Quieter room₁ room₃ := by
  refine ⟨h'.sample_rate.trans h.sample_rate, h'.num_channels.trans h.num_channels, fun l => ?_⟩
  rcases h.tracks l with ⟨h1, h2⟩ | ⟨entry, source, h1, h2, hsize, hle⟩
  · rcases h'.tracks l with ⟨-, h3⟩ | ⟨entry, source, h3, -⟩
    · exact .inl ⟨h1, h3⟩
    · rw [h2] at h3
      cases h3
  · rcases h'.tracks l with ⟨h3, -⟩ | ⟨entry', source', h3, h4, hsize', hle'⟩
    · rw [h2] at h3
      cases h3
    · rw [h2] at h3
      cases h3
      exact .inr ⟨entry, source', h1, h4, hsize'.trans hsize, hle'.trans hle⟩

/-- A quieter room has no more to play in any language. -/
theorem Quieter.queueDepth_le {room' : TranslationRoom sdk} (h : Quieter room room') (l : String) :
    room'.queueDepth l ≤ room.queueDepth l := by
  rcases h.tracks l with ⟨h1, h2⟩ | ⟨entry, source, h1, h2, -, hle⟩
  · rw [queueDepth, queueDepth, h1, h2]
  · rw [queueDepth_eq h1, queueDepth_eq h2]
    exact hle

theorem quieter_changeSource (room : TranslationRoom sdk) (language : String)
    {f : sdk.Source → sdk.Source}
    (hsize : ∀ source, sdk.queue_size_ms (f source) = sdk.queue_size_ms source)
    (hle : ∀ source, sdk.queued_duration (f source) ≤ sdk.queued_duration source) :
    Quieter room (room.changeSource language f) := by
  have hsame : (room.changeSource language f).sample_rate = room.sample_rate ∧
      (room.changeSource language f).num_channels = room.num_channels := by
    unfold changeSource
    split <;> exact ⟨rfl, rfl⟩
  refine ⟨hsame.1, hsame.2, fun l => ?_⟩
  rw [get?_changeSource]
  cases hl : room.tracks.get? l with
  | none => exact .inl ⟨rfl, rfl⟩
  | some entry =>
    by_cases hlanguage : l = language
    · exact .inr ⟨entry, f entry.source, rfl, by simp [hlanguage], hsize _, hle _⟩
    · exact .inr ⟨entry, entry.source, rfl, by simp [hlanguage], rfl, le_rfl⟩

theorem quieter_plays (turn : sdk.Turn) (room : TranslationRoom sdk) (language : String) :
    Quieter room (room.plays turn language) :=
  quieter_changeSource room language (sdk.plays_size turn) (sdk.plays_le turn)

theorem quieter_close (room : TranslationRoom sdk) : Quieter room room.close := by
  unfold close
  generalize room.languages = languages
  have hstart : Quieter room { room with closing := true } := by
    obtain ⟨h1, h2, h3⟩ := Quieter.refl room
    exact ⟨h1, h2, h3⟩
  generalize { room with closing := true } = room' at hstart
  induction languages generalizing room' with
  | nil => exact hstart
  | cons language languages ih =>
    rw [List.foldl_cons]
    exact ih _ (hstart.trans (quieter_changeSource room' language sdk.aclose_size sdk.aclose_le))

/-! ## Publishing -/

/-- What `publish_languages` leaves in a room without tracks: new tracks for the
languages, all of them when the SDK refused none. -/
theorem publishLanguages_spec (refusal : String → Option ε) (languages : List String)
    {room : TranslationRoom sdk}
    (hroom : ∀ l entry, room.tracks.get? l = some entry → entry = room.newTrack l) :
    (∀ l entry, (publishLanguages refusal languages room).1.tracks.get? l = some entry →
      entry = room.newTrack l) ∧
    (publishLanguages refusal languages room).1.sample_rate = room.sample_rate ∧
    (publishLanguages refusal languages room).1.num_channels = room.num_channels ∧
    ((publishLanguages refusal languages room).2 = none → ∀ l,
      (l ∈ languages ∨ room.tracks.get? l = some (room.newTrack l)) →
        (publishLanguages refusal languages room).1.tracks.get? l = some (room.newTrack l)) := by
  induction languages generalizing room with
  | nil => exact ⟨hroom, rfl, rfl, fun _ l hl => hl.resolve_left (by simp)⟩
  | cons language languages ih =>
    unfold publishLanguages
    cases hrefused : refusal language with
    | some raised => exact ⟨hroom, rfl, rfl, by simp⟩
    | none =>
      have hnew : ∀ l, (room.setTrack language (room.newTrack language)).newTrack l =
          room.newTrack l := fun _ => rfl
      obtain ⟨htracks, hrate, hchannels, hall⟩ :=
        @ih (room.setTrack language (room.newTrack language)) (by
          intro l entry hentry
          rw [get?_setTrack] at hentry
          split at hentry
          · rename_i hl
            rw [hl]
            exact (Option.some.inj hentry).symm
          · exact hroom l entry hentry)
      refine ⟨htracks, hrate, hchannels, fun hnone l hl => hall hnone l ?_⟩
      rw [get?_setTrack, hnew]
      by_cases hlanguage : l = language
      · exact .inr (by rw [if_pos hlanguage, hlanguage])
      · rw [if_neg hlanguage]
        exact hl.imp_left fun h => (List.mem_cons.mp h).resolve_left hlanguage

end TranslationRoom

end lad_translate.room
