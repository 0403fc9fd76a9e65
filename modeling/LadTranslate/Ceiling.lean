-- The published latency against the true one. A word is stamped with the end
-- of a step, at or after its true end, and the latency is counted from the
-- stamp. So the recorder never reports more than the true latency, and it
-- reports all of it for the words that ended with their step.
import LadTranslate.Cuts
import LadTranslate.Stamps
import LadTranslate.Talks

namespace lad_translate.pipeline

open phrase_chunker stt_fastconformer latency LatencyRecorder

/-! ## The true latency -/

/-- From the wall time of the true end of a word to a publication. -/
def trueLatency (clock : AudioClock) (p : Publication) (trueEnd : ℚ) : ℚ :=
  p.wall - (clock.epoch.getD 0 + trueEnd)

theorem glassToGlass_le_iff (clock : AudioClock) (p : Publication) (trueEnd : ℚ) :
    p.glassToGlass clock ≤ trueLatency clock p trueEnd ↔ trueEnd ≤ p.t_audio_end := by
  unfold Publication.glassToGlass trueLatency
  rw [sub_le_sub_iff_left, add_le_add_iff_left]

theorem trueLatency_le_iff (clock : AudioClock) (p : Publication) (trueEnd : ℚ) :
    trueLatency clock p trueEnd ≤ p.glassToGlass clock ↔ p.t_audio_end ≤ trueEnd := by
  unfold Publication.glassToGlass trueLatency
  rw [sub_le_sub_iff_left, add_le_add_iff_left]

section

variable [Unicode] (setup : Setup) (events : List Event)

/-- The hypotheses that the chunker heard. -/
def heardBy : List Hypothesis := ((sessionRuns setup).history calls events).filterMap Call.fed

/-- The cuts of the chunks of a session. -/
def cutsBy : List Cut :=
  (talks setup.config.chunker setup.agreement).history cutsOf
    ((sessionRuns setup).history calls events)

variable {setup : Setup} {events : List Event} {s : Session}

/-- A publication is dated to the end of the cut of its chunk. -/
theorem published_cut (h : (sessionRuns setup).run events = some s) {p : Publication}
    (hp : p ∈ (sessionRuns setup).history published events) :
    ∃ k, (cutsBy setup events)[p.chunk_id]? = some k ∧ p.t_audio_end = k.stop ∧
      k.hyp ∈ heardBy setup events ∧ k.count ≤ k.words := by
  obtain ⟨talk, ht, -⟩ := voiced_of_run h
  obtain ⟨chunk, hchunk, hend⟩ := published_chunk h ht hp
  have hwalked := talks_walk ht
  have hstops : (walk 0 ((cutsBy setup events).map Cut.stop)).map Prod.snd =
      (cutsBy setup events).map Cut.stop := walk_snd _ _
  have hat : (talk.emitted.map PhraseChunk.span)[p.chunk_id]? = some chunk.span := by
    rw [List.getElem?_map, hchunk, Option.map_some]
  rw [hwalked.spans] at hat
  have hstop : ((cutsBy setup events).map Cut.stop)[p.chunk_id]? = some chunk.t_audio_end := by
    rw [← hstops, List.getElem?_map]
    unfold cutsBy
    rw [hat]
    rfl
  rw [List.getElem?_map, Option.map_eq_some_iff] at hstop
  obtain ⟨k, hk, hkstop⟩ := hstop
  obtain ⟨hheard, -, hcount⟩ := hwalked.heard k (List.mem_of_getElem? hk)
  exact ⟨k, hk, hend.trans hkstop.symm, hheard, hcount⟩

/-- The recorder keeps the published times, and each of them is at most the true
latency of the chunk's last word. It is no less than the true one exactly when
the word ended with the step at which it appeared as it stands. -/
theorem a_published_latency_is_a_ceiling_iff (h : (sessionRuns setup).run events = some s)
    {d : WordClock} (hstamped : Stamped .fresh (heardBy setup events) d)
    {trueEnd : Hypothesis → Nat → ℚ} (hc : Consistent trueEnd (heardBy setup events)) :
    let ps := (sessionRuns setup).history published events
    let clock := s.recorder.clock
    (∀ l, (s.recorder.g2g.lookup l).getD [] =
      ((ps.filter (·.language = l)).map (·.glassToGlass clock)).rtake 20000) ∧
    ∀ p ∈ ps, ∃ k, (cutsBy setup events)[p.chunk_id]? = some k ∧ k.hyp ∈ heardBy setup events ∧
      ∀ before after, heardBy setup events = before ++ k.hyp :: after → 0 < k.count →
        p.glassToGlass clock ≤ trueLatency clock p (trueEnd k.hyp k.count) ∧
        (trueLatency clock p (trueEnd k.hyp k.count) ≤ p.glassToGlass clock ↔
          trueEnd k.hyp k.count = stoodSince k.hyp k.count before.reverse) := by
  intro ps clock
  refine ⟨?_, ?_⟩
  · intro l
    obtain ⟨n, hkept, -⟩ := metered_of_run h
    have hsamples := hkept.books.samples l
    rw [kept, hkept.cap] at hsamples
    exact hsamples
  · intro p hp
    obtain ⟨k, hk, hend, hheard, hcount⟩ := published_cut h hp
    refine ⟨k, hk, hheard, ?_⟩
    intro before after hat hpos
    have hstamp : p.t_audio_end = stoodSince k.hyp k.count before.reverse :=
      hend.trans (wordEndTime_stamped hstamped hat hpos hcount)
    have hle := hc before k.hyp after hat k.count hpos hcount
    rw [glassToGlass_le_iff, trueLatency_le_iff, hstamp]
    refine ⟨hle, ?_⟩
    constructor
    · intro hge
      exact le_antisymm hle hge
    · intro heq
      exact heq.ge

end

open ascii

/-- Two words, in one step that ends after 0.56 seconds. -/
def greeting : Hypothesis where
  text := "hello there"
  is_final := true
  t_audio_start := 0
  t_audio_end := 56 / 100
  t_wall := 1
  seq := 1
  language := some "en"
  words := some (WordClock.fresh.stamp "hello there" (56 / 100)).2

/-- The two words are translated, spoken, and taken by the room at second 3. -/
def greetingTalk : List Event :=
  [.main (.published none), .main (.markedLive none), .frame 0 0, .pump (.heard greeting 1 1),
    .pump (.translated (.ok ⟨[("fr", "bonjour")], List.nodup_singleton "fr"⟩) 2 2),
    .worker "fr" (.took (.ok 0)), .worker "fr" (.synthesised (.ok (some ⟨[], 16000, 3⟩))),
    .worker "fr" (.pushed (.ok 3))]

theorem greetingTalk_heard : heardBy oneLanguage greetingTalk = [greeting] := by
  decide +kernel

theorem greetingTalk_stamped : Stamped .fresh (heardBy oneLanguage greetingTalk)
    (WordClock.fresh.stamp "hello there" (56 / 100)).1 := by
  rw [greetingTalk_heard]
  exact @Stamped.snoc _ [] _ greeting .nil rfl

/-- Both words ended by second 0.4. -/
theorem greetingTalk_consistent :
    Consistent (fun _ _ => 4 / 10) (heardBy oneLanguage greetingTalk) := by
  rw [greetingTalk_heard]
  intro before hyp after hat i _ _
  cases before with
  | nil =>
    obtain rfl := (List.cons.inj hat).1
    show (4 / 10 : ℚ) ≤ 56 / 100
    norm_num
  | cons first before =>
    have hnone := (List.cons.inj hat).2
    simp at hnone

theorem greetingTalk_evaluated :
    ((sessionRuns oneLanguage).run greetingTalk).map (·.recorder.clock.epoch) = some (some 0) ∧
    (sessionRuns oneLanguage).history published greetingTalk = [⟨0, "fr", 56 / 100, 3⟩] ∧
    (cutsBy oneLanguage greetingTalk).map (fun k => (k.hyp, k.count)) = [(greeting, 2)] := by
  decide +kernel

theorem a_published_latency_is_a_ceiling_iff_for_a_greeting :
    ∃ s, (sessionRuns oneLanguage).run greetingTalk = some s ∧
      ∀ p ∈ (sessionRuns oneLanguage).history published greetingTalk,
        trueLatency s.recorder.clock p (4 / 10) ≤ p.glassToGlass s.recorder.clock ↔
          (4 / 10 : ℚ) = stoodSince greeting 2 [] := by
  obtain ⟨hclock, hps, hcuts⟩ := greetingTalk_evaluated
  obtain ⟨s, hrun, -⟩ := Option.map_eq_some_iff.mp hclock
  refine ⟨s, hrun, ?_⟩
  intro p hp
  obtain ⟨k, hk, hheard, hlaw⟩ := (a_published_latency_is_a_ceiling_iff hrun greetingTalk_stamped
    greetingTalk_consistent).2 p hp
  have hat : ((cutsBy oneLanguage greetingTalk).map fun k => (k.hyp, k.count))[p.chunk_id]? =
      some (k.hyp, k.count) := by
    rw [List.getElem?_map, hk]
    rfl
  rw [hps, List.mem_singleton] at hp
  rw [hcuts, hp] at hat
  obtain ⟨hhyp, hcount⟩ := Prod.mk.inj (Option.some.inj hat)
  have hiff := (hlaw [] [] (by rw [greetingTalk_heard, ← hhyp]; rfl) (by omega)).2
  rwa [← hhyp, ← hcount] at hiff

/-- The words ended at second 0.4 and the audience heard them at second 3, which
is 2.6 seconds later. The recorder reports 2.44. -/
theorem a_published_latency_falls_short_of_the_true_one :
    (∃ d, Stamped .fresh (heardBy oneLanguage greetingTalk) d) ∧
    Consistent (fun _ _ => 4 / 10) (heardBy oneLanguage greetingTalk) ∧
    ∃ s p k, (sessionRuns oneLanguage).run greetingTalk = some s ∧
      p ∈ (sessionRuns oneLanguage).history published greetingTalk ∧
      (cutsBy oneLanguage greetingTalk)[p.chunk_id]? = some k ∧ k.hyp = greeting ∧ k.count = 2 ∧
      p.glassToGlass s.recorder.clock < trueLatency s.recorder.clock p (4 / 10) := by
  obtain ⟨hclock, hps, hcuts⟩ := greetingTalk_evaluated
  obtain ⟨s, hrun, hepoch⟩ := Option.map_eq_some_iff.mp hclock
  obtain ⟨k, rest, hlist, hk, -⟩ := List.map_eq_cons_iff.mp hcuts
  obtain ⟨hhyp, hcount⟩ := Prod.mk.inj hk
  refine ⟨⟨_, greetingTalk_stamped⟩, greetingTalk_consistent, s, ⟨0, "fr", 56 / 100, 3⟩, k, hrun,
    by rw [hps]; exact List.mem_singleton_self _, by rw [hlist]; rfl, hhyp, hcount, ?_⟩
  simp only [Publication.glassToGlass, trueLatency, hepoch, Option.getD_some]
  norm_num

end lad_translate.pipeline
