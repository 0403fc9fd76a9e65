import LadTranslate.Machines
import LadTranslate.CommonPrefix
import LadTranslate.SpokenWords
import LadTranslate.Drain
import LadTranslate.WaitCeiling
import LadTranslate.Guarded
import LadTranslate.Framing
import LadTranslate.Silence
import LadTranslate.Cleanup
import LadTranslate.Tenants
import LadTranslate.Closing
import LadTranslate.Utterances
import LadTranslate.Spans
import LadTranslate.Figures
import LadTranslate.Billing
import LadTranslate.Transcripts
import LadTranslate.Directory
import LadTranslate.Idle
import LadTranslate.Stamps
import LadTranslate.Emissions
import LadTranslate.Cursors
import LadTranslate.Talks
import LadTranslate.Ceiling
import LadTranslate.Whisper
import LadTranslate.SourceTime
import LadTranslate.Carried
import LadTranslate.Windows
import LadTranslate.Shedding
import LadTranslate.Revisions
import LadTranslate.Marks
import LadTranslate.Coverage
import LadTranslate.Retention
import LadTranslate.Tails
import LadTranslate.Hysteresis
import LadTranslate.Cumulative
import LadTranslate.EnergyGate
import LadTranslate.WindowCap
import LadTranslate.OrderedDicts
import LadTranslate.Routing
import LadTranslate.Piper
import LadTranslate.Ramp
import LadTranslate.EditScripts
import LadTranslate.Grids
import LadTranslate.Wer
import LadTranslate.Identifiers
import LadTranslate.Languages
import LadTranslate.Speakers
import LadTranslate.Boundaries
import LadTranslate.Interpolation
import LadTranslate.Percentiles
import LadTranslate.DrainedWords
import LadTranslate.Lookups
import LadTranslate.StartUps
import LadTranslate.Overlaps
import LadTranslate.JoinPage
import LadTranslate.Choices
import LadTranslate.Reservoirs
import LadTranslate.Room
import LadTranslate.Playout
import LadTranslate.Subscriptions
import LadTranslate.SourceFrames
import LadTranslate.Feeds
import LadTranslate.Qwen3
import LadTranslate.Opus
import LadTranslate.Nllb
import LadTranslate.Translation
import LadTranslate.Audience
import LadTranslate.Replay
import LadTranslate.SpeakPage
import LadTranslate.Renditions
import LadTranslate.Pulls
import LadTranslate.Breakdown
