-- The configuration of one session (config.py). A configuration that exists
-- passed the checks of its constructor. Options of the backends are left out.
import LadTranslate.ChunkerTypes

open lad_translate.phrase_chunker

namespace lad_translate.config

/-- Who a session belongs to. -/
structure TenantContext where
  tenant_id : String
  database_url : String
  schema : String
  tenant_id_ne : tenant_id ≠ ""
  database_url_ne : database_url ≠ ""
  schema_ne : schema ≠ ""
deriving DecidableEq

/-- One output language, and the voice that speaks it. -/
structure LanguageTarget where
  code : String
  voice_id : String
  label : String := ""
  code_ne : code ≠ ""
deriving DecidableEq

/-- Which adapters to build. -/
structure BackendSelection where
  stt : String := "faster-whisper"
  mt : String := "opus-mt"
  tts : String := "piper"
deriving DecidableEq

/-- Hard caps on a session. -/
structure SessionLimits where
  max_duration_s : ℚ := 4 * 60 * 60
  max_languages : Nat := 8
  max_idle_s : ℚ := 15 * 60
deriving DecidableEq

/-- Everything one translation session needs. -/
structure SessionConfig where
  session_id : String
  tenant : TenantContext
  room_name : String
  event_name : String
  source_language : String
  targets : List LanguageTarget
  backends : BackendSelection := {}
  chunker : ChunkerConfig := {}
  limits : SessionLimits := {}
  slo_seconds : ℚ := 2
  targets_ne : targets ≠ []
  targets_le : targets.length ≤ limits.max_languages
  codes_nodup : (targets.map (·.code)).Nodup
  source_apart : source_language ∉ targets.map (·.code)

namespace SessionConfig

def targetCodes (config : SessionConfig) : List String := config.targets.map (·.code)

theorem targetCodes_nodup (config : SessionConfig) : config.targetCodes.Nodup := config.codes_nodup

/-- The voice of a target, or a `KeyError`. -/
def voiceFor (config : SessionConfig) (code : String) : Option String :=
  (config.targets.find? (·.code = code)).map (·.voice_id)

/-- A session with one language, and the defaults for the rest. -/
def keynote : SessionConfig where
  session_id := "6f9619ff-8b86-d011-b42d-00c04fc964ff"
  tenant := ⟨"0e984725-c51c-4bf4-9960-e1c80e27aba0", "postgres://db", "lad", by simp, by simp, by simp⟩
  room_name := "hall"
  event_name := "keynote"
  source_language := "en"
  targets := [{ code := "fr", voice_id := "fr_FR-siwis-medium", code_ne := by simp }]
  targets_ne := by simp
  targets_le := by simp
  codes_nodup := by simp
  source_apart := by simp

end SessionConfig

end lad_translate.config
