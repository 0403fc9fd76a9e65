-- The laws of the next utterance: what is said between two finals. A final
-- moves the committed count up to its own length and never down, so a final
-- that is shorter than what was said before it leaves the count too high.
import LadTranslate.SpokenWords

namespace lad_translate.phrase_chunker

section

variable [Unicode]

/-! ## What is said between two states -/

/-- The words of the chunks emitted since a state, as the agreement compares
them. -/
def Talk.saidSince (t s : Talk) : List String :=
  ((t.emitted.drop s.emitted.length).flatMap PhraseChunk.words).map normaliseToken

/-- From one state to the next, the chunks spell the words of a target from
one committed count to the other. -/
structure Says (target : List String) (s t : Talk) : Prop where
  emitted : s.emitted <+: t.emitted
  committed : s.chunker.tracker.committed ≤ t.chunker.tracker.committed
  said : t.saidSince s =
    (target.take t.chunker.tracker.committed).drop s.chunker.tracker.committed

omit [Unicode] in
theorem take_drop_append {α : Type*} (l : List α) {a b c : Nat} (hab : a ≤ b) (hbc : b ≤ c) :
    (l.take b).drop a ++ (l.take c).drop b = (l.take c).drop a := by
  have hlen : c - a = (b - a) + (c - b) := by omega
  rw [List.drop_take, List.drop_take, List.drop_take, hlen, List.take_add, List.drop_drop,
    Nat.add_sub_cancel' hab]

theorem Talk.saidSince_append (c c' : PhraseChunker) (em out : List PhraseChunk) :
    Talk.saidSince ⟨c', em ++ out⟩ ⟨c, em⟩ =
      (out.flatMap PhraseChunk.words).map normaliseToken := by
  rw [Talk.saidSince, List.drop_left]

theorem Says.refl (target : List String) (s : Talk) : Says target s s := by
  refine ⟨List.prefix_refl _, le_rfl, ?_⟩
  rw [Talk.saidSince, List.drop_length, List.drop_take, Nat.sub_self, List.take_zero]
  rfl

theorem Says.trans {target : List String} {s t u : Talk} (h1 : Says target s t)
    (h2 : Says target t u) : Says target s u := by
  refine ⟨h1.emitted.trans h2.emitted, h1.committed.trans h2.committed, ?_⟩
  obtain ⟨xs, hx⟩ := h1.emitted
  obtain ⟨ys, hy⟩ := h2.emitted
  have ht := h1.said
  have hu := h2.said
  unfold Talk.saidSince at ht hu ⊢
  rw [← hx, List.drop_left] at ht
  rw [← hy, List.drop_left] at hu
  rw [← hy, ← hx, List.append_assoc, List.drop_left, List.flatMap_append, List.map_append, ht, hu]
  exact take_drop_append target h1.committed h2.committed

/-- Hearing a hypothesis says nothing yet. -/
theorem Says.of_hear {target : List String} {s t : Talk} {hyp : Hypothesis}
    (h : Says target (s.hear hyp) t) : Says target s t := by
  obtain ⟨hem, hcount, hsaid⟩ := h
  rw [Talk.hear_tracker, StabilityTracker.add_committed] at hcount hsaid
  exact ⟨hem, hcount, hsaid⟩

/-- Commits from a hypothesis that the target starts with spell the target. -/
theorem commits_say {target : List String} {hyp : Hypothesis} {now : Option ℚ}
    {c c' : PhraseChunker} {out em : List PhraseChunk}
    (hc : PhraseChunker.Commits hyp now c out c')
    (htok : ∀ w ∈ c.tracker.latest_surface, IsToken w) (hlatest : c.tracker.latest <+: target) :
    Says target ⟨c, em⟩ ⟨c', em ++ out⟩ := by
  induction hc generalizing em with
  | nil c =>
    rw [List.append_nil]
    exact Says.refl target _
  | @cons c c' stable take reason out hs ht rest ih =>
    rw [List.append_cons]
    refine Says.trans (t := ⟨_, em ++ [(c.commit hyp stable take reason now).2]⟩) ?_
      (ih htok hlatest)
    refine ⟨List.prefix_append _ _, Nat.le_add_right _ _, ?_⟩
    rw [Talk.saidSince_append, List.flatMap_singleton, words_of_commit hyp reason now htok hs ht]
    obtain ⟨_, rfl⟩ := StabilityTracker.stablePrefix_eq_some.mp hs
    have hle : c.tracker.committed + take ≤ max c.tracker.committed c.tracker.latest.length := by
      rw [StabilityTracker.outstanding_length] at ht
      rw [StabilityTracker.latest, List.length_map]
      omega
    -- the words of the newest hypothesis and of the target are the same there
    have hsame : (target.drop c.tracker.committed).take take =
        (c.tracker.latest.drop c.tracker.committed).take take := by
      obtain ⟨more, rfl⟩ := hlatest
      by_cases h0 : take = 0
      · rw [h0, List.take_zero, List.take_zero]
      · rw [List.drop_append_of_le_length (by omega), List.take_append_of_le_length]
        rw [List.length_drop]
        omega
    rw [PhraseChunker.commit_tracker, List.drop_take, Nat.add_sub_cancel_left, hsame, StabilityTracker.latest,
      List.map_take, List.map_drop]

/-- A call after which the newest hypothesis starts the target says words of
the target. -/
theorem call_says {target : List String} {u t : Talk} {a : Call}
    (htok : ∀ w ∈ u.chunker.tracker.latest_surface, IsToken w)
    (hlatest : u.chunker.tracker.latest <+: target)
    (ha : ∀ hyp, a = .feed hyp → normalised hyp.text <+: target)
    (hcall : ∃ out, u.chunker.call a = some (t.chunker, out) ∧ t.emitted = u.emitted ++ out) :
    Says target u t ∧ t.chunker.tracker.latest <+: target := by
  obtain ⟨out, hcall, hem⟩ := hcall
  obtain ⟨c, em⟩ := t
  obtain ⟨cu, emu⟩ := u
  simp only at hcall hem htok hlatest
  subst hem
  cases a with
  | feed hyp =>
    have hc := PhraseChunker.feed_commits hcall
    have hnew : (cu.heard hyp).tracker.latest = normalised hyp.text := by
      rw [StabilityTracker.latest]
      exact congrArg _ (StabilityTracker.add_latest_surface cu.tracker hyp)
    have hlist : ∀ w ∈ (cu.heard hyp).tracker.latest_surface, IsToken w := by
      intro w hw
      have hw' : w ∈ (cu.tracker.add hyp).latest_surface := hw
      rw [StabilityTracker.add_latest_surface] at hw'
      exact isToken_of_mem hw'
    have hspells : Says target (Talk.hear ⟨cu, emu⟩ hyp) ⟨c, emu ++ out⟩ :=
      commits_say hc hlist (hnew ▸ ha hyp rfl)
    obtain ⟨-, -, -, -, hl, -⟩ := hc.frame
    refine ⟨hspells.of_hear, ?_⟩
    rw [StabilityTracker.latest, hl, ← StabilityTracker.latest, hnew]
    exact ha hyp rfl
  | tick now =>
    rcases PhraseChunker.tick_commits hcall with ⟨rfl, rfl⟩ | ⟨hyp, -, hc⟩
    · rw [List.append_nil]
      exact ⟨Says.refl target _, hlatest⟩
    · obtain ⟨-, -, -, -, hl, -⟩ := hc.frame
      refine ⟨commits_say hc htok hlatest, ?_⟩
      rw [StabilityTracker.latest, hl]
      exact hlatest
  | flush =>
    rcases PhraseChunker.flush_commits hcall with ⟨rfl, rfl⟩ | ⟨hyp, -, hc⟩
    · rw [List.append_nil]
      exact ⟨Says.refl target _, hlatest⟩
    · obtain ⟨-, -, -, -, hl, -⟩ := hc.frame
      refine ⟨commits_say hc htok hlatest, ?_⟩
      rw [StabilityTracker.latest, hl]
      exact hlatest

/-! ## Two finals in a row -/

/-- A final, the calls between it and the next final, and the next final: each
hypothesis only appends words to the one before it. -/
structure NextUtterance (f : Hypothesis) (mid : List Call) (g : Hypothesis) : Prop where
  is_final : f.is_final = true
  interims : ∀ hyp ∈ mid.filterMap Call.fed, hyp.is_final = false
  next_is_final : g.is_final = true
  appends : (f :: (mid.filterMap Call.fed ++ [g])).Pairwise
    fun x y => normalised x.text <+: normalised y.text

/-- The feed of a final moves the committed count up to the length of the final. -/
theorem committed_after_final {c c' : PhraseChunker} {hyp : Hypothesis} {out : List PhraseChunk}
    (hf : hyp.is_final = true) (h : c.feed hyp = some (c', out)) :
    c'.tracker.committed = max c.tracker.committed (normalised hyp.text).length := by
  unfold PhraseChunker.feed at h
  simp only [hf, if_true] at h
  obtain ⟨hc, hnil⟩ := PhraseChunker.emitAll_commits h
  have hcount := hc.committed
  have hagreed : (c.tracker.add hyp).agreedLength = (normalised hyp.text).length := by
    rw [StabilityTracker.agreedLength_eq, StabilityTracker.add_final_agreedPrefix c.tracker hyp hf]
  have hlen := StabilityTracker.outstanding_length (c.tracker.add hyp)
  have hsurf : (tokenise hyp.text).length = (normalised hyp.text).length := by simp [normalised]
  rw [hagreed, StabilityTracker.add_latest_surface, StabilityTracker.add_committed, hsurf,
    min_self] at hlen
  rw [hnil, List.length_nil, Nat.add_zero] at hcount
  have hadd : c'.tracker.committed = c.tracker.committed + (c.tracker.add hyp).outstanding.length := by
    rw [hcount]
    congr 1
    exact StabilityTracker.add_committed c.tracker hyp
  omega

/-- From a history on, calls whose hypotheses start a target say words of it. -/
theorem calls_say {config : ChunkerConfig} {h : 1 ≤ config.agreement_n} {target : List String}
    {ls mid : List Call} {s t : Talk} (hs : (talks config h).run ls = some s)
    (hlatest : s.chunker.tracker.latest <+: target)
    (hmid : ∀ hyp ∈ mid.filterMap Call.fed, normalised hyp.text <+: target)
    (ht : (talks config h).run (ls ++ mid) = some t) :
    Says target s t ∧ t.chunker.tracker.latest <+: target := by
  induction mid using List.reverseRecOn generalizing t with
  | nil =>
    rw [List.append_nil, hs, Option.some.injEq] at ht
    exact ht ▸ ⟨Says.refl target s, hlatest⟩
  | append_singleton mid a ih =>
    rw [← List.append_assoc] at ht
    obtain ⟨u, hu, ha⟩ := (talks config h).run_snoc_some.mp ht
    obtain ⟨hsu, hlu⟩ := ih (fun hyp hm => hmid hyp (by simp [hm])) hu
    obtain ⟨hut, hlt⟩ := call_says (talks_faithful hu).tokens hlu
      (fun hyp hfeed => hmid hyp (by simp [hfeed, Call.fed])) (talks_step.mp ha)
    exact ⟨hsu.trans hut, hlt⟩

/-- The chunks emitted after a final, up to the end of the next one, spell the
words that the next one adds exactly when no more words were committed before
the first final than it has, or the next one adds none. -/
theorem the_next_utterance_is_spoken_iff (config : ChunkerConfig) (h : 1 ≤ config.agreement_n)
    (hmax : 1 ≤ config.max_words) (ls : List Call) (f : Hypothesis) (mid : List Call)
    (g : Hypothesis) (hnext : NextUtterance f mid g) :
    ∃ r s t, (talks config h).run ls = some r ∧
      (talks config h).run (ls ++ [.feed f]) = some s ∧
      (talks config h).run (ls ++ [.feed f] ++ mid ++ [.feed g]) = some t ∧
      (t.saidSince s = (normalised g.text).drop (normalised f.text).length ↔
        r.chunker.tracker.committed ≤ (normalised f.text).length ∨
          (normalised g.text).length ≤ (normalised f.text).length) := by
  obtain ⟨t, ht⟩ := talks_total config h hmax (ls ++ [.feed f] ++ mid ++ [.feed g])
  have ht' := ht
  rw [List.append_assoc] at ht'
  obtain ⟨s, hs, -⟩ := (talks config h).run_append_some.mp ht'
  obtain ⟨r, hr, hstep⟩ := (talks config h).run_snoc_some.mp hs
  refine ⟨r, s, t, hr, hs, ht, ?_⟩
  obtain ⟨out, hcall, -⟩ := talks_step.mp hstep
  obtain ⟨hfeeds, -⟩ := feed_final_drains hnext.is_final hcall
  have hbefore := committed_after_final hnext.is_final hcall
  obtain ⟨hf, hrest⟩ := List.pairwise_cons.mp hnext.appends
  have hmid : ∀ hyp ∈ (mid ++ [Call.feed g]).filterMap Call.fed,
      normalised hyp.text <+: normalised g.text := by
    intro hyp hm
    rw [List.filterMap_append] at hm
    rcases List.mem_append.mp hm with hm | hm
    · exact (List.pairwise_append.mp hrest).2.2 hyp hm g (by simp)
    · simp only [Call.fed, List.filterMap_cons, List.filterMap_nil, List.mem_singleton] at hm
      exact hm ▸ List.prefix_refl _
  obtain ⟨hspells, -⟩ := calls_say hs (hfeeds ▸ hf g (by simp)) hmid ht'
  -- the next final is spoken to its end
  obtain ⟨u, -, hlast⟩ := (talks config h).run_snoc_some.mp ht
  obtain ⟨_, hcall', -⟩ := talks_step.mp hlast
  have hend := (feed_final_drains hnext.next_is_final hcall').2
  have hle := (hf g (by simp)).length_le
  rw [hspells.said, List.take_of_length_le hend, hbefore]
  constructor
  · intro heq
    have := congrArg List.length heq
    rw [List.length_drop, List.length_drop] at this
    omega
  · rintro (hcount | hno)
    · rw [max_eq_right hcount]
    · rw [List.drop_eq_nil_of_le (by omega), List.drop_eq_nil_of_le hno]

/-- Each final of the calls starts every hypothesis after it. -/
def Locked (ls : List Call) : Prop :=
  (ls.filterMap Call.fed).Pairwise fun x y =>
    x.is_final = true → tokenise x.text <+: tokenise y.text

end

/-! ## Two utterances about Dubai -/

open ascii

/-- A revision inside the first utterance that no chunk took up. -/
theorem the_next_utterance_is_spoken_after_a_revision :
    ∃ r s t, (talks {} (by decide)).run [.feed (.spoken "we are going to do buy" false 0)] = some r ∧
      (talks {} (by decide)).run ([.feed (.spoken "we are going to do buy" false 0)] ++
        [.feed (.spoken "we are going to Dubai." true 1)]) = some s ∧
      (talks {} (by decide)).run ([.feed (.spoken "we are going to do buy" false 0)] ++
        [.feed (.spoken "we are going to Dubai." true 1)] ++
        [.feed (.spoken "we are going to Dubai. it is" false 2)] ++
        [.feed (.spoken "we are going to Dubai. it is very nice" true 3)]) = some t ∧
      (t.saidSince s = (normalised "we are going to Dubai. it is very nice").drop
          (normalised "we are going to Dubai.").length ↔
        r.chunker.tracker.committed ≤ (normalised "we are going to Dubai.").length ∨
          (normalised "we are going to Dubai. it is very nice").length ≤
            (normalised "we are going to Dubai.").length) :=
  the_next_utterance_is_spoken_iff {} (by decide) (by decide)
    [.feed (.spoken "we are going to do buy" false 0)]
    (.spoken "we are going to Dubai." true 1)
    [.feed (.spoken "we are going to Dubai. it is" false 2)]
    (.spoken "we are going to Dubai. it is very nice" true 3)
    ⟨rfl, by decide, rfl, by decide +kernel⟩

/-- The calls of a talk whose first utterance is cut back by its final. -/
def cutBack : List Call :=
  [.feed (.spoken "we are going to do buy tickets." false 0),
    .feed (.spoken "we are going to do buy tickets." false 1)]

/-- Seven words were said when the final of five came, so two words of the
next utterance are never said. -/
theorem a_shorter_final_swallows_the_next_words :
    Locked (cutBack ++ [.feed (.spoken "we are going to Dubai." true 2)] ++
      [.feed (.spoken "we are going to Dubai. it is very nice" true 3)]) ∧
    NextUtterance (.spoken "we are going to Dubai." true 2) []
      (.spoken "we are going to Dubai. it is very nice" true 3) ∧
    ∃ s t, (talks {} (by decide)).run
        (cutBack ++ [.feed (.spoken "we are going to Dubai." true 2)]) = some s ∧
      (talks {} (by decide)).run (cutBack ++ [.feed (.spoken "we are going to Dubai." true 2)] ++
        [.feed (.spoken "we are going to Dubai. it is very nice" true 3)]) = some t ∧
      t.saidSince s = ["very", "nice"] ∧
      t.saidSince s ≠ (normalised "we are going to Dubai. it is very nice").drop
        (normalised "we are going to Dubai.").length := by
  obtain ⟨s, hs⟩ := talks_total {} (by decide) (by decide)
    (cutBack ++ [.feed (.spoken "we are going to Dubai." true 2)])
  obtain ⟨t, ht⟩ := talks_total {} (by decide) (by decide)
    (cutBack ++ [.feed (.spoken "we are going to Dubai." true 2)] ++
      [.feed (.spoken "we are going to Dubai. it is very nice" true 3)])
  have hsaid : ((talks {} (by decide)).run
        (cutBack ++ [.feed (.spoken "we are going to Dubai." true 2)])).bind (fun s =>
      ((talks {} (by decide)).run (cutBack ++ [.feed (.spoken "we are going to Dubai." true 2)] ++
        [.feed (.spoken "we are going to Dubai. it is very nice" true 3)])).map (·.saidSince s)) =
      some ["very", "nice"] := by decide +kernel
  rw [hs, ht, Option.bind_some, Option.map_some, Option.some.injEq] at hsaid
  refine ⟨?_, ⟨rfl, by decide, rfl, by decide +kernel⟩, s, t, hs, ht, hsaid, ?_⟩
  · unfold Locked
    decide +kernel
  · rw [hsaid]
    decide +kernel

end lad_translate.phrase_chunker
