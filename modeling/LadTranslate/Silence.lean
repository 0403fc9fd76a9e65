-- The silence rule on the clock: hypotheses become available at their times,
-- translations take their durations, and the pump ticks the chunker once
-- after each hypothesis, when its phrases are dispatched.
import LadTranslate.Pump

open machines

namespace lad_translate.pipeline

open phrase_chunker

/-! ## The timed pump -/

/-- A hypothesis, and when the pump can have it. -/
structure Arrival where
  hypothesis : Hypothesis
  available : ℚ
  produced : hypothesis.t_wall ≤ available

/-- One round of the loop of `_pump`: when it took the hypothesis, what
`feed` gave, when it called `tick` and what that gave, and when it was ready
for the next hypothesis. -/
structure Turn where
  arrival : Arrival
  start : ℚ
  fed : PhraseChunker
  phrases : List PhraseChunk
  now : ℚ
  ticked : PhraseChunker
  silence : List PhraseChunk
  ready : ℚ

/-! ## The silence rule -/

/-- A gap of `silence_commit_s` after a hypothesis leaves none of its agreed
words outstanding when the next hypothesis is fed. -/
def GapsDrained (silence_commit_s : ℚ) (turns : List Turn) : Prop :=
  ∀ k turn next, turns[k]? = some turn → turns[k + 1]? = some next →
    turn.arrival.hypothesis.t_wall + silence_commit_s ≤ next.arrival.available →
    turn.ticked.tracker.outstanding = []

/-- A hypothesis became available in the `silence_commit_s` before a time. -/
def Interrupted (silence_commit_s : ℚ) (turns : List Turn) (now : ℚ) : Prop :=
  ∃ other ∈ turns, now - silence_commit_s < other.arrival.available ∧
    other.arrival.available ≤ now

/-- A silence chunk is committed only when no hypothesis became available for
`silence_commit_s`. -/
def SpokenInSilence (silence_commit_s : ℚ) (turns : List Turn) : Prop :=
  ∀ turn ∈ turns, turn.silence ≠ [] → ¬ Interrupted silence_commit_s turns turn.now

/-- The one tick of a round comes at the right time: when it finds agreed words
outstanding, then either it comes too early and the next hypothesis is there
in time as well, or it comes in a silence. -/
def TickInTime (silence_commit_s : ℚ) (turns : List Turn) (k : Nat) (turn : Turn) : Prop :=
  turn.fed.tracker.outstanding ≠ [] →
    if turn.now < turn.arrival.hypothesis.t_wall + silence_commit_s then
      ∀ next, turns[k + 1]? = some next →
        next.arrival.available < turn.arrival.hypothesis.t_wall + silence_commit_s
    else ¬ Interrupted silence_commit_s turns turn.now

section

variable (duration : Nat → ℚ≥0)

/-- How long the translations of some chunks take, one after another. -/
def taking (chunks : List PhraseChunk) : ℚ := (chunks.map fun c => (duration c.chunk_id : ℚ)).sum

/-! ## The dispatches of the pump -/

/-- The pump dispatches some chunks, each translation in its time. -/
inductive Dispatching : Pump → ℚ → List PhraseChunk → Pump → ℚ → Prop
  | rests (p : Pump) (now : ℚ) : Dispatching p now [] p now
  | dispatches {p q r : Pump} {now later : ℚ} {phase : Phase} {chunk : PhraseChunk}
      {rest chunks : List PhraseChunk} (hpc : p.pc = .translating phase chunk rest)
      (hq : p.onward (now + duration chunk.chunk_id) = some q)
      (hmore : Dispatching q (now + duration chunk.chunk_id) chunks r later) :
      Dispatching p now (chunk :: chunks) r later

variable {duration}

theorem taking_cons (chunk : PhraseChunk) (rest : List PhraseChunk) :
    taking duration (chunk :: rest) = duration chunk.chunk_id + taking duration rest := by
  simp [taking]

/-- The loop over the chunks of a tick. -/
theorem dispatching_ticking (c : PhraseChunker) (chunks : List PhraseChunk) (now : ℚ) :
    Dispatching duration (Pump.dispatching .ticking c chunks .receiving) now chunks ⟨c, .receiving⟩
      (now + taking duration chunks) := by
  induction chunks generalizing now with
  | nil =>
    have hnow : now + taking duration [] = now := by simp [taking]
    rw [hnow]
    exact .rests _ now
  | cons chunk rest ih =>
    refine .dispatches rfl (q := Pump.dispatching .ticking c rest .receiving) ?_ ?_
    · cases rest <;> rfl
    · rw [taking_cons, ← add_assoc]
      exact ih _

/-- The loop over the chunks of a feed, and then the loop over those of the tick. -/
theorem dispatching_feeding {c c' : PhraseChunker} {chunk : PhraseChunk}
    {rest silence : List PhraseChunk} {now : ℚ}
    (htick : c.tick (now + taking duration (chunk :: rest)) = some (c', silence)) :
    Dispatching duration ⟨c, .translating .feeding chunk rest⟩ now (chunk :: rest ++ silence)
      ⟨c', .receiving⟩ (now + taking duration (chunk :: rest) + taking duration silence) := by
  induction rest generalizing now chunk with
  | nil =>
    have hnow : now + taking duration [chunk] = now + duration chunk.chunk_id := by
      simp [taking]
    rw [hnow] at htick ⊢
    refine .dispatches rfl ?_ (dispatching_ticking c' silence _)
    simp [Pump.onward, Pump.ticked, htick]
  | cons next rest ih =>
    rw [taking_cons, ← add_assoc] at htick ⊢
    exact .dispatches rfl rfl (ih htick)

end

/-! ## What a tick leaves -/

/-- Commits leave the time of the newest hypothesis as it was. -/
theorem commits_last_hyp_wall {hyp : Hypothesis} {now : Option ℚ} {c c' : PhraseChunker}
    {out : List PhraseChunk} (h : PhraseChunker.Commits hyp now c out c') :
    c'.last_hyp_wall = c.last_hyp_wall := by
  induction h with
  | nil c => rfl
  | cons hs ht rest ih => exact ih

/-- A drain emits something exactly when something is outstanding. -/
theorem emitAll_emits {c c' : PhraseChunker} {hyp : Hypothesis} {reason : CommitReason}
    {now : Option ℚ} {out : List PhraseChunk} (h : c.emitAll hyp reason now = some (c', out)) :
    out ≠ [] ↔ c.tracker.outstanding ≠ [] := by
  unfold PhraseChunker.emitAll PhraseChunker.emitAllLoop at h
  split at h
  · rename_i hnone
    cases h
    simp [StabilityTracker.stablePrefix_eq_none.mp hnone]
  · rename_i stable hs
    obtain ⟨⟨d, chunks⟩, -, hr⟩ := Option.map_eq_some_iff.mp h
    cases hr
    simp [(StabilityTracker.stablePrefix_eq_some.mp hs).1]

/-- What a tick does, by how long ago the newest hypothesis was produced. -/
theorem tick_spec {c c' : PhraseChunker} {hyp : Hypothesis} {now : ℚ} {out : List PhraseChunk}
    (hwall : c.last_hyp_wall = some hyp.t_wall) (hlast : c.last_hyp = some hyp)
    (h : c.tick now = some (c', out)) :
    c'.config = c.config ∧
      (out ≠ [] ↔ c.tracker.outstanding ≠ [] ∧ hyp.t_wall + c.config.silence_commit_s ≤ now) ∧
      (c'.tracker.outstanding = [] ↔
        c.tracker.outstanding = [] ∨ hyp.t_wall + c.config.silence_commit_s ≤ now) := by
  unfold PhraseChunker.tick at h
  simp only [hwall, hlast] at h
  split at h
  · rename_i hearly
    cases h
    have hnot : ¬ hyp.t_wall + c.config.silence_commit_s ≤ now := by linarith
    simp [hnot]
  · rename_i hlate
    have hdue : hyp.t_wall + c.config.silence_commit_s ≤ now := by linarith
    obtain ⟨hcommits, hnil⟩ := PhraseChunker.emitAll_commits h
    refine ⟨hcommits.frame.1, ?_, ?_⟩
    · rw [emitAll_emits h]
      simp [hdue]
    · simp [hnil, hdue]

/-! ## The rounds -/

section

variable [Unicode] (duration : Nat → ℚ≥0)

/-- One round, from a chunker and the time when the pump is ready. -/
def takeTurn (chunker : PhraseChunker) (ready : ℚ) (arrival : Arrival) : Option Turn :=
  let start := max arrival.available ready
  (chunker.feed arrival.hypothesis).bind fun (fed, phrases) =>
    let now := start + taking duration phrases
    (fed.tick now).map fun (ticked, silence) =>
      { arrival, start, fed, phrases, now, ticked, silence, ready := now + taking duration silence }

/-- The rounds of a trace, one after another. -/
def takeTurns : PhraseChunker → ℚ → List Arrival → Option (List Turn)
  | _, _, [] => some []
  | chunker, ready, arrival :: rest =>
    (takeTurn duration chunker ready arrival).bind fun turn =>
      (takeTurns turn.ticked turn.ready rest).map fun turns => turn :: turns

variable {duration}

/-- A round is what the pump does from the hypothesis to its next one. -/
theorem turn_pumps {c : PhraseChunker} {ready : ℚ} {arrival : Arrival} {turn : Turn}
    (h : takeTurn duration c ready arrival = some turn) :
    ∃ p, Pump.hear ⟨c, .receiving⟩ arrival.hypothesis turn.start = some p ∧
      Dispatching duration p turn.start (turn.phrases ++ turn.silence) ⟨turn.ticked, .receiving⟩
        turn.ready := by
  obtain ⟨⟨fed, phrases⟩, hfeed, h⟩ := Option.bind_eq_some_iff.mp h
  obtain ⟨⟨ticked, silence⟩, htick, rfl⟩ := Option.map_eq_some_iff.mp h
  simp only at htick ⊢
  unfold Pump.hear
  simp only [hfeed]
  cases phrases with
  | nil =>
    have hnow : ∀ start : ℚ, start + taking duration [] = start := by simp [taking]
    rw [hnow] at htick ⊢
    exact ⟨Pump.dispatching .ticking ticked silence .receiving, by simp [Pump.ticked, htick],
      dispatching_ticking ticked silence _⟩
  | cons chunk rest => exact ⟨_, rfl, dispatching_feeding htick⟩

/-- What is left in a round: the agreed words that the feed left outstanding
go out with the tick exactly when it comes `silence_commit_s` after the
hypothesis was produced. -/
structure TurnSpec (silence_commit_s : ℚ) (turn : Turn) : Prop where
  speaks : turn.silence ≠ [] ↔ turn.fed.tracker.outstanding ≠ [] ∧
    turn.arrival.hypothesis.t_wall + silence_commit_s ≤ turn.now
  leaves : turn.ticked.tracker.outstanding = [] ↔ turn.fed.tracker.outstanding = [] ∨
    turn.arrival.hypothesis.t_wall + silence_commit_s ≤ turn.now

theorem takeTurn_spec {c : PhraseChunker} {ready : ℚ} {arrival : Arrival} {turn : Turn}
    (h : takeTurn duration c ready arrival = some turn) :
    turn.ticked.config = c.config ∧ TurnSpec c.config.silence_commit_s turn := by
  obtain ⟨⟨fed, phrases⟩, hfeed, h⟩ := Option.bind_eq_some_iff.mp h
  obtain ⟨⟨ticked, silence⟩, htick, rfl⟩ := Option.map_eq_some_iff.mp h
  have hcommits := PhraseChunker.feed_commits hfeed
  have hwall : fed.last_hyp_wall = some arrival.hypothesis.t_wall := commits_last_hyp_wall hcommits
  have hlast : fed.last_hyp = some arrival.hypothesis := hcommits.frame.2.1
  have hconfig : fed.config = c.config := hcommits.frame.1
  obtain ⟨hkept, hspeaks, hleaves⟩ := tick_spec hwall hlast htick
  rw [hconfig] at hkept hspeaks hleaves
  exact ⟨hkept, hspeaks, hleaves⟩

theorem takeTurns_spec {arrivals : List Arrival} {c : PhraseChunker} {ready : ℚ}
    {turns : List Turn} (h : takeTurns duration c ready arrivals = some turns) :
    ∀ turn ∈ turns, TurnSpec c.config.silence_commit_s turn := by
  induction arrivals generalizing c ready turns with
  | nil =>
    cases h
    intro turn hturn
    cases hturn
  | cons arrival rest ih =>
    obtain ⟨first, hfirst, h⟩ := Option.bind_eq_some_iff.mp h
    obtain ⟨more, hmore, rfl⟩ := Option.map_eq_some_iff.mp h
    obtain ⟨hconfig, hspec⟩ := takeTurn_spec hfirst
    intro turn hturn
    rcases List.mem_cons.mp hturn with rfl | hturn
    · exact hspec
    · have hlater := ih hmore turn hturn
      rwa [hconfig] at hlater

/-- The pump keeps the silence rule over a trace exactly when each of its
ticks comes at the right time. -/
theorem the_silence_rule_is_kept_iff_every_tick_is_in_time (config : ChunkerConfig)
    (h : 1 ≤ config.agreement_n) (duration : Nat → ℚ≥0) (opened : ℚ) {arrivals : List Arrival}
    {turns : List Turn}
    (hturns : takeTurns duration (.fresh config h) opened arrivals = some turns) :
    GapsDrained config.silence_commit_s turns ∧ SpokenInSilence config.silence_commit_s turns ↔
      ∀ k turn, turns[k]? = some turn → TickInTime config.silence_commit_s turns k turn := by
  have hspec : ∀ turn ∈ turns, TurnSpec config.silence_commit_s turn := takeTurns_spec hturns
  constructor
  · rintro ⟨hgaps, hsilence⟩ k turn hk houtstanding
    have hmem := List.mem_of_getElem? hk
    split
    · rename_i hearly
      intro next hnext
      by_contra hlate
      rcases (hspec turn hmem).leaves.mp (hgaps k turn next hk hnext (not_lt.mp hlate)) with hnil | hdue
      · exact houtstanding hnil
      · exact absurd hdue (not_le.mpr hearly)
    · rename_i hdue
      exact hsilence turn hmem ((hspec turn hmem).speaks.mpr ⟨houtstanding, not_lt.mp hdue⟩)
  · intro hticks
    refine ⟨?_, ?_⟩
    · intro k turn next hk hnext hgap
      have htick := hticks k turn hk
      by_contra hleft
      rw [(hspec turn (List.mem_of_getElem? hk)).leaves, not_or, not_le] at hleft
      have hnext' := htick hleft.1
      rw [if_pos hleft.2] at hnext'
      exact absurd hgap (not_le.mpr (hnext' next hnext))
    · intro turn hmem hspeaks
      obtain ⟨k, hk⟩ := List.mem_iff_getElem?.mp hmem
      obtain ⟨houtstanding, hdue⟩ := (hspec turn hmem).speaks.mp hspeaks
      have htick := hticks k turn hk houtstanding
      rwa [if_neg (not_lt.mpr hdue)] at htick

end

open ascii

/-- A speaker who pauses after a clause and a half: the recogniser repeats its
hypothesis once, and translating the clause takes a second. -/
def slowLine : List Arrival :=
  [⟨.spoken "hello and good morning everyone, thank you for coming" false 0, 0, le_rfl⟩,
    ⟨.spoken "hello and good morning everyone, thank you for coming" false (1 / 10), 1 / 10, le_rfl⟩,
    ⟨.spoken "hello and good morning everyone, thank you for coming today" false 2, 2, le_rfl⟩]

theorem slowLine_times : (takeTurns (fun _ => 1) (.fresh {} (by decide)) 0 slowLine).map
    (fun turns => turns.map fun turn =>
      (turn.arrival.available, turn.arrival.hypothesis.t_wall, turn.now)) =
      some [(0, 0, 0), (1 / 10, 1 / 10, 11 / 10), (2, 2, 21 / 10)] := by
  decide +kernel

theorem slowLine_words : (takeTurns (fun _ => 1) (.fresh {} (by decide)) 0 slowLine).map
    (fun turns => turns.map fun turn => (turn.fed.tracker.outstanding, turn.silence.map (·.text))) =
      some [([], []), (["thank", "you", "for", "coming"], ["thank you for coming"]), ([], [])] := by
  decide +kernel

/-- The tick comes a second late, in the pause, and speaks the rest. -/
theorem the_silence_rule_is_kept_through_a_pause :
    ∃ turns, takeTurns (fun _ => 1) (.fresh {} (by decide)) 0 slowLine = some turns ∧
      turns.map (fun turn => turn.silence.map (·.text)) = [[], ["thank you for coming"], []] ∧
      GapsDrained (6 / 10) turns ∧ SpokenInSilence (6 / 10) turns := by
  obtain ⟨turns, hturns, htimes⟩ := Option.map_eq_some_iff.mp slowLine_times
  have hwords := slowLine_words
  rw [hturns, Option.map_some, Option.some.injEq] at hwords
  obtain ⟨first, rest, rfl, hfirst, hrest⟩ := List.map_eq_cons_iff.mp htimes
  obtain ⟨second, rest, rfl, hsecond, hrest⟩ := List.map_eq_cons_iff.mp hrest
  obtain ⟨third, rest, rfl, hthird, hrest⟩ := List.map_eq_cons_iff.mp hrest
  obtain rfl := List.map_eq_nil_iff.mp hrest
  simp only [List.map_cons, List.map_nil, List.cons.injEq, Prod.mk.injEq, and_true] at hwords
  simp only [Prod.mk.injEq] at hfirst hsecond hthird
  obtain ⟨⟨hnone, hquiet⟩, ⟨-, hspoken⟩, hnone', hquiet'⟩ := hwords
  refine ⟨_, hturns, ?_, (the_silence_rule_is_kept_iff_every_tick_is_in_time {} (by decide) _ 0
    hturns).mpr fun k turn hk houtstanding => ?_⟩
  · simp only [List.map_cons, List.map_nil, hquiet, hspoken, hquiet']
  · have hsome : turn = second := by
      rcases List.mem_cons.mp (List.mem_of_getElem? hk) with rfl | hmem
      · exact absurd hnone houtstanding
      · rcases List.mem_cons.mp hmem with rfl | hmem
        · rfl
        · rw [List.mem_singleton.mp hmem] at houtstanding
          exact absurd hnone' houtstanding
    subst hsome
    have hlate : ¬ turn.now < turn.arrival.hypothesis.t_wall + 6 / 10 := by
      rw [hsecond.2.1, hsecond.2.2]
      norm_num
    rw [if_neg hlate]
    rintro ⟨other, hother, hafter, hbefore⟩
    rw [hsecond.2.2] at hafter hbefore
    simp only [List.mem_cons, List.not_mem_nil, or_false] at hother
    -- the second before the tick is a pause
    rcases hother with rfl | rfl | rfl
    · rw [hfirst.1] at hafter
      norm_num at hafter
    · rw [hsecond.1] at hafter
      norm_num at hafter
    · rw [hthird.1] at hbefore
      norm_num at hbefore

/-- A speaker who pauses for two seconds in the middle of a sentence: the
recogniser repeats its hypothesis once, and then there is nothing new. -/
def pausedLine : List Arrival :=
  [⟨.spoken "hello there everyone" false 0, 0, le_rfl⟩,
    ⟨.spoken "hello there everyone" false (1 / 10), 1 / 10, le_rfl⟩,
    ⟨.spoken "hello there everyone in" false 2, 2, le_rfl⟩]

theorem pausedLine_evaluated : (takeTurns (fun _ => 0) (.fresh {} (by decide)) 0 pausedLine).bind
    (fun turns => turns[1]?.bind fun turn => turns[2]?.map fun next =>
      (turn.arrival.hypothesis.t_wall, turn.ticked.tracker.outstanding, next.arrival.available)) =
      some (1 / 10, ["hello", "there", "everyone"], 2) := by
  decide +kernel

/-- The pump ticks at 1/10, too early, and never again before the next
hypothesis comes, so three agreed words wait through the pause. -/
theorem the_silence_rule_is_broken_by_a_pause :
    ∃ turns, takeTurns (fun _ => 0) (.fresh {} (by decide)) 0 pausedLine = some turns ∧
      ¬ (GapsDrained (6 / 10) turns ∧ SpokenInSilence (6 / 10) turns) := by
  obtain ⟨turns, hturns, hvalue⟩ := Option.bind_eq_some_iff.mp pausedLine_evaluated
  obtain ⟨turn, hturn, hvalue⟩ := Option.bind_eq_some_iff.mp hvalue
  obtain ⟨next, hnext, hvalue⟩ := Option.map_eq_some_iff.mp hvalue
  simp only [Prod.mk.injEq] at hvalue
  obtain ⟨hwall, houtstanding, havailable⟩ := hvalue
  refine ⟨turns, hturns, ?_⟩
  intro hrule
  have hnil := hrule.1 1 turn next hturn hnext (by rw [hwall, havailable]; norm_num)
  rw [houtstanding] at hnil
  cases hnil

end lad_translate.pipeline
