-- The laws of the spoken words: while no contradiction was raised, what the
-- audience heard is a prefix of the newest hypothesis, and a final completes
-- it. The contradiction check compares a hypothesis with the one before it.
-- That is enough, because the one before it starts with the spoken words.
import LadTranslate.Chunker

open machines

namespace lad_translate.phrase_chunker

section

variable [Unicode]

/-- No contradiction was raised so far: the flag is not set, and no emitted
chunk carries it. -/
def Talk.Uncontradicted (t : Talk) : Prop :=
  t.chunker.tracker.contradicted = false ∧ ∀ c ∈ t.emitted, c.revised_after_commit = false

/-- The spoken words, as the agreement compares them. -/
def Talk.spoken (t : Talk) : List String := t.words.map normaliseToken

/-- The normalised tokens of the newest hypothesis. -/
def StabilityTracker.latest (t : StabilityTracker) : List String :=
  t.latest_surface.map normaliseToken

/-! ## The invariant of a talk -/

/-- What every history keeps. The law about the spoken words is `spoken`. -/
structure Faithful (t : Talk) : Prop where
  newest : t.chunker.tracker.window.getLast?.getD [] = t.chunker.tracker.latest
  tokens : ∀ w ∈ t.chunker.tracker.latest_surface, IsToken w
  count : t.words.length = t.chunker.tracker.committed
  spoken : t.Uncontradicted → t.spoken <+: t.chunker.tracker.latest

theorem faithful_fresh (config : ChunkerConfig) (h : 1 ≤ config.agreement_n) :
    Faithful ⟨PhraseChunker.fresh config h, []⟩ :=
  ⟨rfl, by simp [PhraseChunker.fresh, StabilityTracker.fresh], rfl, fun _ => List.nil_prefix⟩

omit [Unicode] in
/-- A hypothesis that the check lets through starts with the spoken words, when
the one before it does. -/
theorem prefix_of_not_disagrees {t : StabilityTracker} {said x : List String}
    (hlen : said.length = t.committed) (hprev : said <+: t.window.getLast?.getD [])
    (h : t.disagrees x = false) : said <+: x := by
  simp only [StabilityTracker.disagrees, decide_eq_false_iff_not, not_and, not_or, not_not] at h
  by_cases h0 : t.committed = 0
  · rw [List.length_eq_zero_iff.mp (hlen.trans h0)]
    exact List.nil_prefix
  · have htake := (h h0).2 (hlen ▸ hprev.length_le)
    rw [← hlen, ← List.prefix_iff_eq_take.mp hprev] at htake
    rw [← htake]
    exact List.take_prefix _ _

theorem faithful_hear (t : Talk) (hyp : Hypothesis) (h : Faithful t) : Faithful (t.hear hyp) := by
  obtain ⟨hnew, htok, hcount, hspoken⟩ := h
  refine ⟨?_, ?_, by simpa using hcount, ?_⟩
  · simp [StabilityTracker.add_newest, StabilityTracker.latest, normalised]
  · simp only [Talk.hear_tracker, StabilityTracker.add_latest_surface]
    exact fun w hw => isToken_of_mem hw
  · rintro ⟨hflag, hem⟩
    simp only [Talk.hear_tracker, StabilityTracker.add_contradicted, Bool.or_eq_false_iff] at hflag
    have hsaid := hspoken ⟨hflag.1, hem⟩
    rw [← hnew] at hsaid
    have := prefix_of_not_disagrees (by simpa [Talk.spoken] using hcount) hsaid hflag.2
    simpa [Talk.spoken, StabilityTracker.latest, normalised] using this

omit [Unicode] in
/-- The words of a committed chunk are the tokens that it took. -/
theorem words_of_commit {c : PhraseChunker} (hyp : Hypothesis) {stable : StablePrefix} {take : Nat}
    (reason : CommitReason) (now : Option ℚ)
    (htok : ∀ w ∈ c.tracker.latest_surface, IsToken w)
    (hs : c.tracker.stablePrefix = some stable) (ht : take ≤ stable.tokens.length) :
    (c.commit hyp stable take reason now).2.words =
      (c.tracker.latest_surface.drop c.tracker.committed).take take := by
  obtain ⟨_, rfl⟩ := StabilityTracker.stablePrefix_eq_some.mp hs
  have hwords : (c.commit hyp ⟨c.tracker.outstanding, c.tracker.firstSeenWall⟩ take reason now).2.words =
      tokenise (joinTokens (c.tracker.outstanding.take take)) := rfl
  rw [hwords, StabilityTracker.outstanding_take c.tracker take ht]
  apply tokenise_joinTokens
  intro w hw
  exact htok w (List.mem_of_mem_drop (List.mem_of_mem_take hw))

theorem faithful_say (t : Talk) (hyp : Hypothesis) (stable : StablePrefix) (take : Nat)
    (reason : CommitReason) (now : Option ℚ) (h : Faithful t)
    (hs : t.chunker.tracker.stablePrefix = some stable) (ht : take ≤ stable.tokens.length) :
    Faithful (t.say hyp stable take reason now) := by
  obtain ⟨hnew, htok, hcount, hspoken⟩ := h
  have hw := words_of_commit hyp reason now htok hs ht
  have hlen : take ≤ t.chunker.tracker.latest_surface.length - t.chunker.tracker.committed := by
    obtain ⟨_, rfl⟩ := StabilityTracker.stablePrefix_eq_some.mp hs
    simp only [StabilityTracker.outstanding_length] at ht
    omega
  refine ⟨hnew, htok, ?_, ?_⟩
  · simp [hw, hcount, hlen]
  · rintro ⟨-, hem⟩
    have hsaid := hspoken ⟨hem (t.chunker.commit hyp stable take reason now).2 (by simp),
      fun x hx => hem x (by simp [hx])⟩
    -- the next words of the newest hypothesis follow the spoken ones
    have heq := List.prefix_iff_eq_take.mp hsaid
    rw [Talk.spoken, List.length_map, hcount] at heq
    have hnext : (t.say hyp stable take reason now).spoken =
        t.chunker.tracker.latest.take (t.chunker.tracker.committed + take) := by
      rw [List.take_add, ← heq]
      simp [Talk.spoken, hw, StabilityTracker.latest]
    rw [hnext]
    exact List.take_prefix _ _

/-- Every history is faithful. -/
theorem talks_faithful {config : ChunkerConfig} {h : 1 ≤ config.agreement_n} {ls : List Call}
    {t : Talk} (hr : (talks config h).run ls = some t) : Faithful t :=
  talk_induction (P := fun _ t => Faithful t) (faithful_fresh config h)
    (fun _ t hyp ht => faithful_hear t hyp ht) (fun _ _ _ _ ht => ht)
    (fun _ t hyp now stable take reason hp _ hs ht =>
      faithful_say t hyp stable take reason now hp hs ht) hr

/-! ## The laws -/

/-- After the feed of a final, nothing of it is outstanding. -/
theorem feed_final_drains {c c' : PhraseChunker} {hyp : Hypothesis} {out : List PhraseChunk}
    (hf : hyp.is_final = true) (h : c.feed hyp = some (c', out)) :
    c'.tracker.latest = normalised hyp.text ∧
      (normalised hyp.text).length ≤ c'.tracker.committed := by
  unfold PhraseChunker.feed at h
  simp only [hf, if_true] at h
  obtain ⟨hc, hnil⟩ := PhraseChunker.emitAll_commits h
  obtain ⟨-, -, hn, hw, hl, -⟩ := hc.frame
  have hsurf : c'.tracker.latest_surface = tokenise hyp.text := by
    rw [hl]
    exact StabilityTracker.add_latest_surface _ _
  have hagreed : c'.tracker.agreedLength = (normalised hyp.text).length := by
    rw [StabilityTracker.agreedLength_eq, StabilityTracker.agreedPrefix, hn, hw]
    exact congrArg List.length (StabilityTracker.add_final_agreedPrefix c.tracker hyp hf)
  refine ⟨by rw [StabilityTracker.latest, hsurf, normalised], ?_⟩
  have hlen := StabilityTracker.outstanding_length c'.tracker
  rw [hnil, hagreed, hsurf, normalised, List.length_map, List.length_nil] at hlen
  rw [normalised, List.length_map]
  omega

/-- Every hypothesis of the history starts with the words that were spoken
before it. -/
def Agreeing (config : ChunkerConfig) (h : 1 ≤ config.agreement_n) (ls : List Call) : Prop :=
  ∀ pre hyp post t, ls = pre ++ .feed hyp :: post → (talks config h).run pre = some t →
    t.spoken <+: normalised hyp.text

omit [Unicode] in
/-- A hypothesis that starts with the spoken words raises nothing, when the one
before it starts with them too. -/
theorem not_disagrees_of_isPrefix {t : StabilityTracker} {said x : List String}
    (hlen : said.length = t.committed) (hprev : said <+: t.window.getLast?.getD [])
    (h : said <+: x) : t.disagrees x = false := by
  simp only [StabilityTracker.disagrees, decide_eq_false_iff_not, not_and, not_or, not_not]
  intro _
  have hx := List.prefix_iff_eq_take.mp h
  have hp := List.prefix_iff_eq_take.mp hprev
  have := h.length_le
  rw [hlen] at hx hp this
  exact ⟨by omega, fun _ => by rw [← hx, ← hp]⟩

omit [Unicode] in
theorem uncontradicted_commits {hyp : Hypothesis} {now : Option ℚ} {c c' : PhraseChunker}
    {out em : List PhraseChunk} (hc : PhraseChunker.Commits hyp now c out c')
    (h : Talk.Uncontradicted ⟨c, em⟩) : Talk.Uncontradicted ⟨c', em ++ out⟩ := by
  induction hc generalizing em with
  | nil c => simpa using h
  | cons hs ht rest ih =>
    rw [List.append_cons]
    apply ih
    refine ⟨rfl, ?_⟩
    intro x hx
    rcases List.mem_append.mp hx with hx | hx
    · exact h.2 x hx
    · rw [List.mem_singleton.mp hx]
      exact h.1

theorem agreeing_is_uncontradicted {config : ChunkerConfig} {h : 1 ≤ config.agreement_n}
    {ls : List Call} {t : Talk} (hr : (talks config h).run ls = some t)
    (ha : Agreeing config h ls) : t.Uncontradicted := by
  refine (talks config h).run_induction
    (P := fun ls t => Agreeing config h ls → t.Uncontradicted) ?_ ?_ hr ha
  · exact fun _ => ⟨rfl, by simp [talks]⟩
  intro ls s a t hrun ih hstep hagr
  have hs := ih fun pre hyp post u hsplit => hagr pre hyp (post ++ [a]) u (by simp [hsplit])
  obtain ⟨out, hcall, hem⟩ := talks_step.mp hstep
  obtain ⟨c, em⟩ := t
  simp only at hcall hem
  subst hem
  cases a with
  | feed hyp =>
    apply uncontradicted_commits (PhraseChunker.feed_commits hcall)
    have hf := talks_faithful hrun
    have hsaid := hf.spoken hs
    rw [← hf.newest] at hsaid
    have hno := not_disagrees_of_isPrefix (by simpa [Talk.spoken] using hf.count) hsaid
      (hagr ls hyp [] s rfl hrun)
    exact ⟨by simp [PhraseChunker.heard, hs.1, hno], hs.2⟩
  | tick now =>
    rcases PhraseChunker.tick_commits hcall with ⟨rfl, rfl⟩ | ⟨hyp, -, hc⟩
    · simpa using hs
    · exact uncontradicted_commits hc hs
  | flush =>
    rcases PhraseChunker.flush_commits hcall with ⟨rfl, rfl⟩ | ⟨hyp, -, hc⟩
    · simpa using hs
    · exact uncontradicted_commits hc hs

/-- After the feed of a final, and while no contradiction was raised, the words
spoken so far are exactly the words of the final. And a history in which every
hypothesis starts with the words spoken before it raises no contradiction. -/
theorem a_final_completes_the_spoken_words (config : ChunkerConfig)
    (h : 1 ≤ config.agreement_n) (hmax : 1 ≤ config.max_words) :
    (∀ ls hyp, hyp.is_final = true → ∃ t, (talks config h).run (ls ++ [.feed hyp]) = some t ∧
      (t.Uncontradicted → t.words.map normaliseToken = (tokenise hyp.text).map normaliseToken)) ∧
    (∀ ls, ∃ t, (talks config h).run ls = some t ∧ (Agreeing config h ls → t.Uncontradicted)) := by
  constructor
  · intro ls hyp hf
    obtain ⟨t, ht⟩ := talks_total config h hmax (ls ++ [.feed hyp])
    refine ⟨t, ht, ?_⟩
    intro hu
    have hfaith := talks_faithful ht
    obtain ⟨s, _, hstep⟩ := (talks config h).run_snoc_some.mp ht
    obtain ⟨out, hcall, -⟩ := talks_step.mp hstep
    obtain ⟨hlatest, hlen⟩ := feed_final_drains hf hcall
    have hsaid := hfaith.spoken hu
    rw [hlatest] at hsaid
    apply hsaid.eq_of_length_le
    rw [Talk.spoken, List.length_map, hfaith.count]
    exact hlen
  · intro ls
    obtain ⟨t, ht⟩ := talks_total config h hmax ls
    exact ⟨t, ht, agreeing_is_uncontradicted ht⟩

end

open ascii in
/-- A talk with a revision: "do buy" becomes "Dubai" before it is agreed. -/
theorem a_final_completes_the_spoken_words_of_a_revised_line :
    ∃ t, (talks {} (by decide)).run
        ([.feed (.spoken "we are going to do buy" false 0),
          .feed (.spoken "We are going, to Dubai" false 1)] ++
          [.feed (.spoken "We are going to Dubai next month." true 2)]) = some t ∧
      (t.Uncontradicted → t.words.map normaliseToken =
        (tokenise "We are going to Dubai next month.").map normaliseToken) :=
  (a_final_completes_the_spoken_words {} (by decide) (by decide)).1 _
    (.spoken "We are going to Dubai next month." true 2) rfl

end lad_translate.phrase_chunker
