-- A block of audio (adapters/base.py). Seconds are exact rationals.
import Mathlib

namespace lad_translate.audio

/-- A block of mono PCM audio taken from the source track. A frame has a
positive rate: its duration divides by it. -/
structure AudioFrame where
  /-- Signed 16-bit little-endian mono samples. -/
  pcm : List UInt8
  sample_rate : Nat
  sample_rate_pos : 0 < sample_rate
  /-- Seconds since session start, at the first sample of the frame. -/
  t_audio : ℚ
  t_wall : ℚ
deriving DecidableEq

def AudioFrame.duration (frame : AudioFrame) : ℚ := (frame.pcm.length : ℚ) / 2 / frame.sample_rate

end lad_translate.audio
