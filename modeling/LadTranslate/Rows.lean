-- The rows of the session tables (db/migrations/001_translation_sessions.sql)
-- and the records of db/sessions.py. A row carries the CHECK constraints of
-- its table, so a row that breaks one cannot be built. Times are exact
-- rationals, in seconds. Columns that no statement reads are left out.
import Mathlib

namespace lad_translate.sessions

/-- The values that the status CHECK admits. -/
inductive Status
  | starting
  | live
  | ended
  | failed
deriving DecidableEq, Repr

/-- A row of `translation_sessions`. -/
structure SessionRow (Uuid : Type) where
  session_id : Uuid
  tenant_id : Uuid
  event_name : String
  room_name : String
  source_language : String
  target_languages : List String
  status : Status
  started_at : ℚ
  ended_at : Option ℚ
  failure_reason : Option String
  billed_seconds : Option Nat
  billed_language_count : Option Nat
  latency_credible : Bool
  backend_stt : Option String
  backend_mt : Option String
  backend_tts : Option String
  targets_not_empty : target_languages ≠ []
  ended_after_started : ∀ t ∈ ended_at, started_at ≤ t
  failure_has_reason : status = .failed → failure_reason.isSome
deriving DecidableEq

/-- A row of `session_listeners`. -/
structure ListenerRow (Uuid : Type) where
  listener_id : Uuid
  session_id : Uuid
  tenant_id : Uuid
  language : String
  joined_at : ℚ
  left_at : Option ℚ
  left_after_joined : ∀ t ∈ left_at, joined_at ≤ t
deriving DecidableEq

/-- One chunk in one language, as the session hands it to the store. -/
structure TranscriptRow where
  chunk_id : Int
  language : String
  source_text : String
  translated_text : Option String
  t_audio_start : ℚ
  t_audio_end : ℚ
  latency_s : Option ℚ
  commit_reason : Option String
  revised : Bool
deriving DecidableEq

/-- A row of `session_transcripts`. -/
structure StoredTranscript (Uuid : Type) extends TranscriptRow where
  session_id : Uuid
  tenant_id : Uuid
  audio_span : t_audio_start ≤ t_audio_end
deriving DecidableEq

/-- What a session is charged for. -/
structure SessionBilling where
  session_id : String
  tenant_id : String
  seconds : Nat
  language_count : Nat
deriving DecidableEq

/-- The billable quantity. -/
def SessionBilling.languageSeconds (b : SessionBilling) : Nat := b.seconds * b.language_count

end lad_translate.sessions
