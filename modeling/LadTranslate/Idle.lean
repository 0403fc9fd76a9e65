-- The idle cap (session/pipeline.py, `_watchdog`): the clock that it reads is set
-- by the hypotheses, and not by the frames that pass `_anchor_clock`.
import LadTranslate.Dispatch
import LadTranslate.Steps

open machines

namespace lad_translate.pipeline

open phrase_chunker

section

variable [Unicode] {setup : Setup} {s t : Session} {events : List Event}

/-! ## What an idle end should say -/

/-- A frame that passed arrived in the last `max_idle_s` seconds. -/
def SourceHeard (setup : Setup) (events : List Event) (now : ℚ) : Prop :=
  ∃ t_audio t_wall, .frame t_audio t_wall ∈ events ∧
    now - setup.config.limits.max_idle_s < t_wall ∧ t_wall ≤ now

/-- The watchdog woke and ended the session for want of source audio. -/
def EndsIdle (setup : Setup) (s : Session) (now : ℚ) : Prop :=
  ∃ t, (sessionRuns setup).step s (.watch now) = some t ∧ t.watching = false ∧
    t.end_reason = some (.maxIdle setup.config.limits.max_idle_s)

/-- Where the watchdog ends a session as idle, no source audio came. -/
def EndsInSilence (setup : Setup) (events : List Event) : Prop :=
  ∀ before now after s, events = before ++ .watch now :: after →
    (sessionRuns setup).run before = some s → EndsIdle setup s now → ¬ SourceHeard setup before now

/-! ## The clock of the watchdog -/

/-- What an observer of the pump notes: when it took a hypothesis. -/
def hypothesisAt (s : Session) (event : Event) (_ : Session) : List ℚ :=
  match event with
  | .pump (.heard _ audio_at _) => if s.stop then [] else [audio_at]
  | _ => []

/-- When the pump took the last hypothesis, or when the session started. -/
def lastHypothesisAt (setup : Setup) (events : List Event) : ℚ :=
  ((sessionRuns setup).history hypothesisAt events).getLastD setup.started_at

omit [Unicode] in
theorem pumpTo_last_audio_at (setup : Setup) (s : Session) (p : Pump) :
    (s.pumpTo setup p).last_audio_at = s.last_audio_at := by
  obtain ⟨pump, recorder, chunks, heq, -⟩ := Session.pumpTo_eq setup s p
  rw [heq]

omit [Unicode] in
theorem submitAll_last_audio_at (chunk : PhraseChunk) (now : ℚ) (items : List (String × String))
    (s : Session) : (s.submitAll chunk now items).1.last_audio_at = s.last_audio_at := by
  induction items generalizing s with
  | nil => rfl
  | cons item items ih =>
    unfold Session.submitAll
    simp only
    split
    · rfl
    · rw [ih]
      rfl

/-- A hypothesis that the pump takes sets the clock, and nothing else does. -/
theorem last_audio_at_pump {p : Pump} {event : PumpEvent} (hpumps : Pumps setup s p event t) :
    t.last_audio_at = (hypothesisAt s (.pump event) t).getLastD s.last_audio_at := by
  cases hpumps with
  | hears hstop hq =>
    rw [pumpTo_last_audio_at, hypothesisAt, hstop]
    rfl
  | fails hevent =>
    cases event with
    | heard hyp audio_at now => exact absurd rfl (hevent hyp audio_at now)
    | _ => rfl
  | finishes hevent hq =>
    rw [pumpTo_last_audio_at]
    cases event with
    | heard hyp audio_at now =>
      rw [hypothesisAt, hevent hyp audio_at now rfl]
      rfl
    | _ => rfl
  | submitFails => exact submitAll_last_audio_at _ _ _ _
  | submits => exact (pumpTo_last_audio_at _ _ _).trans (submitAll_last_audio_at _ _ _ _)

theorem last_audio_at_step (hs : Sound setup s) {event : Event}
    (hstep : (sessionRuns setup).step s event = some t) :
    t.last_audio_at = (hypothesisAt s event t).getLastD s.last_audio_at := by
  cases event with
  | main event => exact (main_frame hs.stage (Session.mainStep_did hstep)).last_audio_at
  | pump event =>
    obtain ⟨p, -, hstep⟩ := pump_step hstep
    exact last_audio_at_pump (Session.pumpStep_pumps hstep)
  | worker language event =>
    obtain ⟨w, hw, hstep⟩ := Option.bind_eq_some_iff.mp hstep
    obtain ⟨w', recorder, drift, rows, rfl, -⟩ := Session.workerStep_worked hstep
    rfl
  | watch now =>
    obtain ⟨end_reason, stop, watching, rfl⟩ := watch_step hstep
    rfl
  | frame t_audio t_wall =>
    obtain ⟨recorder, heq⟩ := anchorClock_eq s t_audio t_wall
    rw [frame_step hstep, heq]
    rfl

/-- In every state that a run reaches, the clock is the time of the last hypothesis. -/
theorem last_audio_at_of_run (h : (sessionRuns setup).run events = some s) :
    s.last_audio_at = lastHypothesisAt setup events := by
  refine (sessionRuns setup).run_induction (P := fun events s =>
    s.last_audio_at = lastHypothesisAt setup events) rfl ?_ h
  intro events s event t hrun ih hstep
  rw [last_audio_at_step (sound_of_run hrun) hstep, ih, lastHypothesisAt, lastHypothesisAt,
    (sessionRuns setup).history_snoc hypothesisAt hrun hstep, getLastD_append]

/-! ## The law of the idle cap -/

/-- The watchdog ends a session as idle below the duration cap, when the last
hypothesis is too long ago. -/
theorem endsIdle_iff {now : ℚ} : EndsIdle setup s now ↔ s.watching = true ∧
    now - setup.started_at < setup.config.limits.max_duration_s ∧
      setup.config.limits.max_idle_s ≤ now - s.last_audio_at := by
  unfold EndsIdle
  constructor
  · rintro ⟨t, hstep, hstopped, hreason⟩
    simp only [sessionRuns] at hstep
    split at hstep
    · rename_i hwatching
      cases hstep
      unfold Session.watch at hstopped hreason
      simp only at hstopped hreason
      split_ifs at hstopped hreason with hduration hidle
      · cases hreason
      · exact ⟨hwatching, not_le.mp hduration, hidle⟩
      · rw [hwatching] at hstopped
        cases hstopped
    · cases hstep
  · rintro ⟨hwatching, hduration, hidle⟩
    refine ⟨s.watch setup now, if_pos hwatching, ?_, ?_⟩
    all_goals
      unfold Session.watch
      simp only
      rw [if_neg (not_le.mpr hduration), if_pos hidle]

/-- A session is ended as idle only where no source audio came, exactly when at
every wake-up of the watchdog below the duration cap that has heard source audio
in the last `max_idle_s` seconds, the pump took a hypothesis in them. -/
theorem an_idle_end_means_silence_iff (setup : Setup) (events : List Event) :
    EndsInSilence setup events ↔ ∀ before now after s, events = before ++ .watch now :: after →
      (sessionRuns setup).run before = some s → s.watching = true →
      now - setup.started_at < setup.config.limits.max_duration_s →
      SourceHeard setup before now →
        now - lastHypothesisAt setup before < setup.config.limits.max_idle_s := by
  constructor
  · intro hsilent before now after s hsplit hrun hwatching hduration hheard
    by_contra hidle
    refine hsilent before now after s hsplit hrun (endsIdle_iff.mpr ⟨hwatching, hduration, ?_⟩) hheard
    rw [last_audio_at_of_run hrun]
    exact not_lt.mp hidle
  · intro hheard before now after s hsplit hrun hends hsource
    obtain ⟨hwatching, hduration, hidle⟩ := endsIdle_iff.mp hends
    rw [last_audio_at_of_run hrun] at hidle
    exact absurd hidle (not_le.mpr
      (hheard before now after s hsplit hrun hwatching hduration hsource))

end

open ascii

/-- The keynote begins with a quarter of an hour of music. Every five seconds the
watchdog wakes and a frame arrives, and there is not one hypothesis. -/
def musicFirst : List Event :=
  [.main (.published none), .main (.markedLive none), .frame 0 1] ++
    (List.range 179).flatMap fun k =>
      [.watch (5 * k + 5 : Nat), .frame (5 * k + 5 : Nat) (5 * k + 6 : Nat)]

theorem musicFirst_evaluated : ((sessionRuns oneLanguage).run musicFirst).map
    (fun s => (s.watching, s.last_audio_at)) = some (true, 0) := by
  decide +kernel

/-- The watchdog ends the keynote for want of source audio, four seconds after a frame. -/
theorem music_ends_the_keynote : ¬ EndsInSilence oneLanguage (musicFirst ++ [.watch 900]) := by
  intro hsilent
  obtain ⟨s, hrun, hs⟩ := Option.map_eq_some_iff.mp musicFirst_evaluated
  obtain ⟨hwatching, hlast⟩ := Prod.mk.inj hs
  refine hsilent musicFirst 900 [] s rfl hrun ?_ ⟨895, 896, ?_, ?_, ?_⟩
  · apply endsIdle_iff.mpr
    rw [hlast]
    exact ⟨hwatching, by decide +kernel, by decide +kernel⟩
  · apply List.mem_append_right
    refine List.mem_flatMap.mpr ⟨178, List.mem_range.mpr (by omega), ?_⟩
    norm_num
  · decide +kernel
  · norm_num

end lad_translate.pipeline
