-- The speaker's audio (session/room.py): the frames that a room yields, and
-- where they are in the source. The law carries them through the backlog guard
-- to the hypotheses of the streaming adapter.
import LadTranslate.Carried
import LadTranslate.Room
import LadTranslate.Shedding
import LadTranslate.SourceTime

open fallible

namespace lad_translate.room

open audio backpressure source_time
open stt_fastconformer (SAMPLE_RATE_16K AudioFrame16k EveryTenMs FastConformerSttAdapter Hearing
  SpeechModel carried fromBuffer)

/-- A frame of the SDK's audio stream. -/
structure StreamFrame where
  data : List UInt8
  sample_rate : Nat
  sample_rate_pos : 0 < sample_rate
  samples_per_channel : Nat

/-- `source_frames`, from a position on: the position adds up from the frames. -/
def sourceFramesFrom : ℚ → List (StreamFrame × ℚ) → List AudioFrame
  | _, [] => []
  | t_audio, (frame, now) :: events =>
    { pcm := frame.data
      sample_rate := frame.sample_rate
      sample_rate_pos := frame.sample_rate_pos
      t_audio
      t_wall := now } ::
      sourceFramesFrom (t_audio + (frame.samples_per_channel : ℚ) / frame.sample_rate) events

def sourceFrames (events : List (StreamFrame × ℚ)) : List AudioFrame := sourceFramesFrom 0 events

/-- The frame has one channel: two bytes for each sample of it. -/
def StreamFrame.Mono (frame : StreamFrame) : Prop :=
  frame.data.length = 2 * frame.samples_per_channel

instance (frame : StreamFrame) : Decidable frame.Mono :=
  inferInstanceAs (Decidable (_ = _))

/-- The frames follow one another exactly when each but the last is mono. -/
theorem contiguous_sourceFramesFrom (t : ℚ) (events : List (StreamFrame × ℚ)) :
    Contiguous t (sourceFramesFrom t events) ↔ ∀ event ∈ events.dropLast, event.1.Mono := by
  induction events generalizing t with
  | nil => simp [sourceFramesFrom, Contiguous]
  | cons event events ih =>
    obtain ⟨frame, now⟩ := event
    cases events with
    | nil => simp [sourceFramesFrom, Contiguous]
    | cons next events =>
      rw [List.dropLast_cons_cons, List.forall_mem_cons, ← ih]
      have hrate : (frame.sample_rate : ℚ) ≠ 0 := by exact_mod_cast frame.sample_rate_pos.ne'
      have hmono : (frame.data.length : ℚ) / 2 / frame.sample_rate =
          frame.samples_per_channel / frame.sample_rate ↔ frame.Mono := by
        rw [div_left_inj' hrate, div_eq_iff two_ne_zero, StreamFrame.Mono]
        constructor
        · intro h
          have hcast : (frame.data.length : ℚ) = ((frame.samples_per_channel * 2 : Nat) : ℚ) := by
            exact_mod_cast h
          have hnat := Nat.cast_injective hcast
          omega
        · intro h
          rw [h]
          push_cast
          ring
      have hposition : (frame.data.length : ℚ) / 2 / frame.sample_rate =
            frame.samples_per_channel / frame.sample_rate →
          t + AudioFrame.duration ⟨frame.data, frame.sample_rate, frame.sample_rate_pos, t, now⟩ =
            t + (frame.samples_per_channel : ℚ) / frame.sample_rate := by
        intro heq
        rw [AudioFrame.duration, heq]
      constructor
      · rintro ⟨-, hrest⟩
        have hnext : t + (frame.samples_per_channel : ℚ) / frame.sample_rate =
            t + (frame.data.length : ℚ) / 2 / frame.sample_rate := hrest.1
        have heq := (add_left_cancel hnext).symm
        rw [hposition heq] at hrest
        exact ⟨hmono.mp heq, hrest⟩
      · rintro ⟨hm, hrest⟩
        refine ⟨rfl, ?_⟩
        rw [hposition (hmono.mpr hm)]
        exact hrest

theorem fromBuffer_even {pcm : List UInt8} {n : Nat} (h : pcm.length = 2 * n) :
    ∃ samples, fromBuffer pcm = .ok samples := by
  induction n generalizing pcm with
  | zero =>
    obtain rfl := List.length_eq_zero_iff.mp h
    exact ⟨[], rfl⟩
  | succ n ih =>
    match pcm, h with
    | lo :: hi :: rest, h =>
      obtain ⟨samples, hsamples⟩ := @ih rest (by simp only [List.length_cons] at h; omega)
      exact ⟨_, by rw [fromBuffer, hsamples]; rfl⟩

/-- Mono frames at 16 kHz come out as such. -/
theorem sourceFrames_16k {t : ℚ} {events : List (StreamFrame × ℚ)}
    (hmono : ∀ event ∈ events, event.1.Mono ∧ event.1.sample_rate = SAMPLE_RATE_16K) :
    ∀ frame ∈ sourceFramesFrom t events, AudioFrame16k frame := by
  induction events generalizing t with
  | nil => simp [sourceFramesFrom]
  | cons event events ih =>
    obtain ⟨source, now⟩ := event
    intro frame hframe
    rcases List.mem_cons.mp hframe with rfl | hframe
    · obtain ⟨hm, hrate⟩ := hmono _ List.mem_cons_self
      exact ⟨hrate, fromBuffer_even hm⟩
    · exact ih (fun event hevent => hmono event (List.mem_cons_of_mem _ hevent)) frame hframe

/-! ## Behind the guard -/

section

variable {ε : Type} {max_lag_s recover_to_s warn_lag_s : ℚ} {hvalid : recover_to_s < max_lag_s}
  {frames : List AudioFrame} {ending : Option ε} {turns : List Turn} {s : Guarded ε}

/-- What an adapter gets is among what the guard got. -/
theorem received_subset
    (hr : (guarded (.fresh max_lag_s recover_to_s warn_lag_s hvalid) frames ending).run turns =
      some s) : ∀ frame ∈ s.received, frame ∈ frames := by
  have hrecorded := recorded_of_run hr
  intro frame hframe
  rw [hrecorded.received, ledgers.Ledger.leftAs, List.mem_map] at hframe
  obtain ⟨x, hx, rfl⟩ := hframe
  rw [← hrecorded.source, ledgers.Ledger.entered]
  have hleft : x.1 ∈ s.ledger.left.map Prod.fst :=
    List.mem_map_of_mem (List.mem_filter.mp hx).1
  exact List.mem_append_left _ (List.mem_append_left _ hleft)

end

/-- Ten milliseconds of a loud tone, as the SDK gives them, four times. -/
def toneStream : List (StreamFrame × ℚ) :=
  (List.range 4).map fun k =>
    (⟨(tone 0).pcm, (tone 0).sample_rate, (tone 0).sample_rate_pos, 160⟩, (k : ℚ) / 100)

theorem toneStream_frames :
    sourceFrames toneStream = [tone 0, tone 1, tone 2, tone 3] ∧
      ∀ event ∈ toneStream, event.1.Mono ∧ event.1.sample_rate = SAMPLE_RATE_16K := by
  decide +kernel

end lad_translate.room
