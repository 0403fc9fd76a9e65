-- Glass to glass latency (obs/latency.py): the clock that maps source audio
-- to wall time, one trace for each chunk and language, and the recorder.
-- Seconds are exact rationals. The log lines and the rounding of the report
-- are left out.
import LadTranslate.Dicts

open dicts

namespace lad_translate.latency

/-- Points a chunk passes through, in this order. -/
inductive Stage
  | committed
  | translated
  | ttsFirstAudio
  | published
deriving DecidableEq, Repr

/-- Maps a position in the source audio to the wall time it arrived. -/
structure AudioClock where
  epoch : Option ℚ
deriving DecidableEq

namespace AudioClock

/-- Set the mapping from the first audio frame of the session. -/
def anchor (c : AudioClock) (t_audio t_wall : ℚ) : AudioClock :=
  match c.epoch with
  | none => ⟨some (t_wall - t_audio)⟩
  | some _ => c

def anchored (c : AudioClock) : Bool := c.epoch.isSome

def wallFor (c : AudioClock) (t_audio : ℚ) : Except String ℚ :=
  match c.epoch with
  | none => .error "RuntimeError: AudioClock used before the first frame arrived"
  | some epoch => .ok (epoch + t_audio)

end AudioClock

/-- Timings for one chunk in one target language. -/
structure ChunkTrace where
  chunk_id : Nat
  language : String
  audio_end_wall : ℚ
  marks : Dict Stage ℚ

namespace ChunkTrace

/-- First mark wins. -/
def mark (t : ChunkTrace) (stage : Stage) (t_wall : ℚ) : ChunkTrace :=
  { t with marks := setdefault t.marks stage t_wall }

def glassToGlass (t : ChunkTrace) : Option ℚ :=
  (t.marks.lookup .published).map (· - t.audio_end_wall)

/-- Seconds between two stages, when both are marked. -/
def between (t : ChunkTrace) (start stop : Stage) (label : String) : List (String × ℚ) :=
  match t.marks.lookup start, t.marks.lookup stop with
  | some a, some b => [(label, b - a)]
  | _, _ => []

/-- Per-stage durations in seconds. Missing stages are omitted. -/
def breakdown (t : ChunkTrace) : List (String × ℚ) :=
  ((t.marks.lookup .committed).map fun committed =>
      ("chunker", committed - t.audio_end_wall)).toList ++
    t.between .committed .translated "translate" ++
    t.between .translated .ttsFirstAudio "tts" ++
    t.between .ttsFirstAudio .published "publish"

end ChunkTrace

/-- Linear interpolation between the two nearest ranks. -/
def percentile (values : List ℚ) (pct : ℚ) : ℚ :=
  if values = [] then 0
  else
    let ordered := values.mergeSort
    let k := (ordered.length - 1 : ℚ) * pct
    let lo := ⌊k⌋.toNat
    let hi := min (lo + 1) (ordered.length - 1)
    ordered.getD lo 0 + (ordered.getD hi 0 - ordered.getD lo 0) * (k - lo)

structure LanguageStats where
  language : String
  count : Nat
  p50 : ℚ
  p95 : ℚ
  p99 : ℚ
  worst : ℚ
  stage_means : List (String × ℚ)

/-- Collects traces for a session and reports percentiles. -/
structure LatencyRecorder where
  slo_seconds : ℚ
  clock : AudioClock
  sample_cap : Nat
  open_chunks : Dict (Nat × String) ChunkTrace
  g2g : Dict String (List ℚ)
  stages : Dict String (Dict String (List ℚ))
  breaches : Nat
  revisions : Nat

namespace LatencyRecorder

def fresh (slo_seconds : ℚ) : LatencyRecorder where
  slo_seconds := slo_seconds
  clock := ⟨none⟩
  sample_cap := 20000
  open_chunks := ∅
  g2g := ∅
  stages := ∅
  breaches := 0
  revisions := 0

/-- The clock raises before the first frame arrived. -/
def openChunk (r : LatencyRecorder) (chunk_id : Nat) (language : String) (t_audio_end : ℚ) :
    Except String LatencyRecorder := do
  let audio_end_wall ← r.clock.wallFor t_audio_end
  let trace : ChunkTrace := { chunk_id, language, audio_end_wall, marks := ∅ }
  return { r with open_chunks := r.open_chunks.insert (chunk_id, language) trace }

/-- Append, and drop the oldest samples beyond the cap. -/
def append (r : LatencyRecorder) (target : List ℚ) (value : ℚ) : List ℚ :=
  let target := target ++ [value]
  target.drop (target.length - r.sample_cap)

/-- The samples of a trace that reached its last stage go to the statistics. -/
def close (r : LatencyRecorder) (trace : ChunkTrace) : LatencyRecorder :=
  match trace.glassToGlass with
  | none => r
  | some g2g =>
    let samples := (r.g2g.lookup trace.language).getD []
    let stages := trace.breakdown.foldl (fun stages (label, seconds) =>
      AList.insert label (r.append ((stages.lookup label).getD []) seconds) stages)
      ((r.stages.lookup trace.language).getD ∅)
    { r with
      g2g := r.g2g.insert trace.language (r.append samples g2g)
      stages := r.stages.insert trace.language stages
      breaches := if g2g > r.slo_seconds then r.breaches + 1 else r.breaches
      open_chunks := r.open_chunks.erase (trace.chunk_id, trace.language) }

def mark (r : LatencyRecorder) (chunk_id : Nat) (language : String) (stage : Stage) (t_wall : ℚ) :
    LatencyRecorder :=
  match r.open_chunks.lookup (chunk_id, language) with
  | none => r
  | some trace =>
    let trace := trace.mark stage t_wall
    let r := { r with open_chunks := r.open_chunks.insert (chunk_id, language) trace }
    if stage = .published then r.close trace else r

/-- A committed chunk was later contradicted by the backend. -/
def recordRevision (r : LatencyRecorder) : LatencyRecorder := { r with revisions := r.revisions + 1 }

def stats (r : LatencyRecorder) (language : String) : LanguageStats :=
  let values := (r.g2g.lookup language).getD []
  { language
    count := values.length
    p50 := percentile values (50 / 100)
    p95 := percentile values (95 / 100)
    p99 := percentile values (99 / 100)
    worst := values.foldl max (values.headD 0)
    stage_means := (((r.stages.lookup language).getD ∅).entries.filter (·.2 ≠ [])).map fun entry =>
      (entry.1, entry.2.sum / entry.2.length) }

/-- Session-level report. -/
structure Summary where
  slo_seconds : ℚ
  slo_breaches : Nat
  revisions_after_commit : Nat
  unfinished_chunks : Nat
  languages : List LanguageStats

def summary (r : LatencyRecorder) : Summary where
  slo_seconds := r.slo_seconds
  slo_breaches := r.breaches
  revisions_after_commit := r.revisions
  unfinished_chunks := r.open_chunks.keys.length
  languages := r.g2g.keys.map r.stats

end LatencyRecorder

end lad_translate.latency
