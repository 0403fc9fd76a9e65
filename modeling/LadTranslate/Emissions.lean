-- What stands behind each chunk of a talk: the chunker that committed it, how
-- many words it took and why. Every commit reads the same window, and takes
-- its words from the front of what that window agrees on.
import LadTranslate.SpokenWords

namespace lad_translate.phrase_chunker

/-! ## The size of a chunk -/

/-- What the reason of a chunk says about its size. -/
structure Sized (config : ChunkerConfig) (chunk : PhraseChunk) : Prop where
  pos : 1 ≤ chunk.word_count
  ceiling : chunk.word_count ≤ config.max_words
  full : chunk.reason = .maxWords → chunk.word_count = config.max_words
  floor : chunk.reason = .clause ∨ chunk.reason = .stabilityTimeout →
    config.min_words ≤ chunk.word_count

/-- A drain: it takes what there is, whatever the clauses are. -/
def CommitReason.Drains (reason : CommitReason) : Prop := reason = .silence ∨ reason = .final

namespace PhraseChunker

theorem emitAllLoop_sized {hyp : Hypothesis} {reason : CommitReason} {now : Option ℚ}
    {fuel : Nat} {c c' : PhraseChunker} {out : List PhraseChunk} (hmax : 1 ≤ c.config.max_words)
    (hreason : reason.Drains) (h : emitAllLoop hyp reason now fuel c = some (c', out)) :
    ∀ chunk ∈ out, Sized c.config chunk := by
  induction fuel generalizing c c' out with
  | zero => simp [emitAllLoop] at h
  | succ fuel ih =>
    unfold emitAllLoop at h
    split at h
    · cases h
      simp
    · rename_i stable hs
      simp only [Option.map_eq_some_iff, Prod.exists, Prod.mk.injEq] at h
      obtain ⟨d, chunks, hloop, -, rfl⟩ := h
      obtain ⟨hne, rfl⟩ := StabilityTracker.stablePrefix_eq_some.mp hs
      have hpos := List.length_pos_iff.mpr hne
      intro chunk hchunk
      rcases List.mem_cons.mp hchunk with rfl | hchunk
      · refine ⟨?_, min_le_right _ _, ?_, ?_⟩
        · apply le_min hpos hmax
        · intro hr
          rcases hreason with h | h <;> cases h <;> cases hr
        · intro hr
          rcases hreason with h | h <;> cases h <;> rcases hr with hr | hr <;> cases hr
      · have hrest := ih (show 1 ≤ (c.commit hyp _ _ reason now).1.config.max_words from hmax) hloop
        exact hrest chunk hchunk

variable [Unicode]

theorem tryEmit_sized (c : PhraseChunker) (hyp : Hypothesis) (hmin : 1 ≤ c.config.min_words)
    (hmax : 1 ≤ c.config.max_words) : ∀ chunk ∈ (c.tryEmit hyp).2, Sized c.config chunk := by
  unfold tryEmit
  split
  · simp
  · rename_i stable hs
    simp only
    split_ifs with h1 h2 h3
    · intro chunk hchunk
      rw [List.mem_singleton.mp hchunk]
      exact ⟨hmax, le_rfl, fun _ => rfl, by rintro (h | h) <;> cases h⟩
    · -- a clause of fewer words than the ceiling
      have hlt := Nat.lt_of_not_le h1
      have hle := findBoundary_le stable.tokens c.config.min_words
        (c.config.allow_conjunction_boundary &&
          decide ((stable.tokens.length : ℚ) ≥ c.config.conjunction_threshold * c.config.max_words))
      have hfloor := le_findBoundary stable.tokens c.config.min_words
        (c.config.allow_conjunction_boundary &&
          decide ((stable.tokens.length : ℚ) ≥ c.config.conjunction_threshold * c.config.max_words))
      intro chunk hchunk
      rw [List.mem_singleton.mp hchunk]
      exact ⟨h2, hle.trans hlt.le, by rintro ⟨⟩, fun _ => hfloor.resolve_left h2.ne'⟩
    · intro chunk hchunk
      rw [List.mem_singleton.mp hchunk]
      have hlt := Nat.lt_of_not_le h1
      exact ⟨hmin.trans h3.2, hlt.le, by rintro ⟨⟩, fun _ => h3.2⟩
    · simp

theorem call_sized {c c' : PhraseChunker} {a : Call} {out : List PhraseChunk}
    (hmin : 1 ≤ c.config.min_words) (hmax : 1 ≤ c.config.max_words)
    (h : c.call a = some (c', out)) : ∀ chunk ∈ out, Sized c.config chunk := by
  cases a with
  | feed hyp =>
    simp only [call, feed] at h
    split at h
    · exact emitAllLoop_sized (c := c.heard hyp) hmax (.inr rfl) h
    · have hsized := tryEmit_sized (c.heard hyp) hyp hmin hmax
      rw [Option.some.inj h] at hsized
      exact hsized
  | tick now =>
    simp only [call, tick] at h
    split at h
    · split at h
      · cases h
        simp
      · exact emitAllLoop_sized hmax (.inl rfl) h
    · cases h
      simp
  | flush =>
    simp only [call, flush] at h
    split at h
    · cases h
      simp
    · exact emitAllLoop_sized hmax (.inr rfl) h

end PhraseChunker

/-! ## One commit after another -/

namespace PhraseChunker

/-- Commits move the counter by the words that they took, and the number by
one for each. -/
theorem Commits.counts {hyp : Hypothesis} {now : Option ℚ} {c c' : PhraseChunker}
    {out : List PhraseChunk} (h : Commits hyp now c out c') :
    c'.tracker.committed = c.tracker.committed + (out.map (·.word_count)).sum := by
  induction h with
  | nil c => rfl
  | @cons c c' stable take reason out hs ht rest ih =>
    rw [ih, commit_tracker, List.map_cons, List.sum_cons, ← Nat.add_assoc]
    rfl

/-- The commit of one chunk among others, and the chunker that it was made
from. -/
theorem Commits.split {hyp : Hypothesis} {now : Option ℚ} {c c' : PhraseChunker}
    {done rest : List PhraseChunk} {chunk : PhraseChunk}
    (h : Commits hyp now c (done ++ chunk :: rest) c') :
    ∃ d stable reason, Commits hyp now c done d ∧ d.tracker.stablePrefix = some stable ∧
      chunk.word_count ≤ stable.tokens.length ∧
      chunk = (d.commit hyp stable chunk.word_count reason now).2 ∧
      Commits hyp now (d.commit hyp stable chunk.word_count reason now).1 rest c' := by
  induction done generalizing c with
  | nil =>
    cases h with
    | cons hs ht rest => exact ⟨c, _, _, .nil c, hs, ht, rfl, rest⟩
  | cons x done ih =>
    cases h with
    | cons hs ht rest =>
      obtain ⟨d, stable, reason, hdone, hd⟩ := ih rest
      exact ⟨d, stable, reason, .cons hs ht hdone, hd⟩

variable [Unicode]

/-- The chunker with the hypothesis of a call recorded, before it decides. -/
def told (c : PhraseChunker) (a : Call) : PhraseChunker :=
  match a.fed with
  | some hyp => c.heard hyp
  | none => c

@[simp] theorem told_committed (c : PhraseChunker) (a : Call) :
    (c.told a).tracker.committed = c.tracker.committed := by
  cases a with
  | feed hyp => exact StabilityTracker.add_committed c.tracker hyp
  | tick now => rfl
  | flush => rfl

@[simp] theorem told_audio_cursor (c : PhraseChunker) (a : Call) :
    (c.told a).audio_cursor = c.audio_cursor := by
  cases a <;> rfl

end PhraseChunker

section

variable [Unicode] {config : ChunkerConfig} {h : 1 ≤ config.agreement_n} {ls : List Call}
  {s t : Talk} {a : Call}

/-- A call records its hypothesis, and then it commits from the newest one or
leaves everything as it is. -/
theorem step_commits (hr : (talks config h).run ls = some s)
    (hs : (talks config h).step s a = some t) :
    Remembers config.agreement_n (ls ++ [a]) ⟨s.chunker.told a, s.emitted⟩ ∧
      ∃ out, t.emitted = s.emitted ++ out ∧
        ((out = [] ∧ t.chunker = s.chunker.told a) ∨
          ∃ hyp now, lastFed (ls ++ [a]) = some hyp ∧
            PhraseChunker.Commits hyp now (s.chunker.told a) out t.chunker) := by
  obtain ⟨out, hcall, hem⟩ := talks_step.mp hs
  have hm := talks_remember hr
  cases a with
  | feed hyp =>
    have hheard := hm.hear hyp
    refine ⟨hheard, out, hem, Or.inr ⟨hyp, none, lastFed_feed ls hyp, ?_⟩⟩
    exact PhraseChunker.feed_commits hcall
  | tick now =>
    have hquiet := hm.quiet (a := .tick now) (by simp)
    refine ⟨hquiet, out, hem, ?_⟩
    rcases PhraseChunker.tick_commits hcall with ⟨hc, ho⟩ | ⟨hyp, hl, hc⟩
    · exact Or.inl ⟨ho, hc⟩
    · exact Or.inr ⟨hyp, some now, hquiet.last_hyp ▸ hl, hc⟩
  | flush =>
    have hquiet := hm.quiet (a := .flush) (by simp)
    refine ⟨hquiet, out, hem, ?_⟩
    rcases PhraseChunker.flush_commits hcall with ⟨hc, ho⟩ | ⟨hyp, hl, hc⟩
    · exact Or.inl ⟨ho, hc⟩
    · exact Or.inr ⟨hyp, none, hquiet.last_hyp ▸ hl, hc⟩

/-- Commits leave what is remembered as it was. -/
theorem Remembers.commits {n : Nat} {hyp : Hypothesis} {now : Option ℚ} {c c' : PhraseChunker}
    {out em em' : List PhraseChunk} (hm : Remembers n ls ⟨c, em⟩)
    (hc : PhraseChunker.Commits hyp now c out c') : Remembers n ls ⟨c', em'⟩ := by
  induction hc generalizing em with
  | nil c => exact ⟨hm.n_eq, hm.window, hm.last_hyp, hm.last_hyp_wall, hm.surface, hm.first_seen⟩
  | cons hs ht rest ih =>
    apply ih
    · exact ⟨hm.n_eq, hm.window, hm.last_hyp, hm.last_hyp_wall, hm.surface, hm.first_seen⟩
    · exact em

/-- Behind each chunk of a call: the newest hypothesis, and the chunker `d`
that committed the chunk from it. -/
theorem step_emits (hr : (talks config h).run ls = some s)
    (hs : (talks config h).step s a = some t) {done rest : List PhraseChunk} {chunk : PhraseChunk}
    (hem : t.emitted = s.emitted ++ (done ++ chunk :: rest)) :
    ∃ hyp now d stable reason, lastFed (ls ++ [a]) = some hyp ∧
      Remembers config.agreement_n (ls ++ [a]) ⟨d, s.emitted ++ done⟩ ∧
      PhraseChunker.Commits hyp now (s.chunker.told a) done d ∧
      d.tracker.stablePrefix = some stable ∧ chunk.word_count ≤ stable.tokens.length ∧
      chunk = (d.commit hyp stable chunk.word_count reason now).2 := by
  obtain ⟨hm, out, hout, hcalls⟩ := step_commits hr hs
  rw [hout, List.append_cancel_left_eq] at hem
  subst hem
  rcases hcalls with ⟨hnil, -⟩ | ⟨hyp, now, hl, hc⟩
  · simp at hnil
  · obtain ⟨d, stable, reason, hdone, hstable, hle, hchunk, -⟩ := hc.split
    exact ⟨hyp, now, d, stable, reason, hl, hm.commits hdone, hdone, hstable, hle, hchunk⟩

/-! ## Only agreed words are committed -/

/-- The n most recent hypotheses, as normalised tokens. A final counts as n
copies of itself. -/
def recent (n : Nat) (ls : List Call) : List (List String) := (entries n ls).rtake n

end

/-- Each chunk covers positions at which the n most recent hypotheses all have
a token, and the same one up to normalisation. Its text is what the newest
hypothesis has there. No chunk comes before there are n hypotheses. -/
theorem only_agreed_words_are_committed [Unicode] (config : ChunkerConfig)
    (h : 1 ≤ config.agreement_n) (hmax : 1 ≤ config.max_words) (ls : List Call) (a : Call) :
    ∃ s t out, (talks config h).run ls = some s ∧ (talks config h).run (ls ++ [a]) = some t ∧
      t.emitted = s.emitted ++ out ∧ ∀ done chunk rest, out = done ++ chunk :: rest →
        (recent config.agreement_n (ls ++ [a])).length = config.agreement_n ∧
        ∃ hyp p, lastFed (ls ++ [a]) = some hyp ∧
          p = s.chunker.tracker.committed + (done.map (·.word_count)).sum ∧
          (∀ i, p ≤ i → i < p + chunk.word_count →
            ∃ w, ∀ x ∈ recent config.agreement_n (ls ++ [a]), x[i]? = some w) ∧
          chunk.text = joinTokens (((tokenise hyp.text).drop p).take chunk.word_count) := by
  obtain ⟨t, ht⟩ := talks_total config h hmax (ls ++ [a])
  obtain ⟨s, hs, hstep⟩ := (talks config h).run_snoc_some.mp ht
  obtain ⟨-, out, hout, -⟩ := step_commits hs hstep
  refine ⟨s, t, out, hs, ht, hout, ?_⟩
  rintro done chunk rest rfl
  obtain ⟨hyp, now, d, stable, reason, hl, hm, hdone, hstable, hle, hchunk⟩ :=
    step_emits hs hstep hout
  obtain ⟨hne, rfl⟩ := StabilityTracker.stablePrefix_eq_some.mp hstable
  have hcount : d.tracker.committed =
      s.chunker.tracker.committed + (done.map (·.word_count)).sum := by
    rw [hdone.counts, PhraseChunker.told_committed]
  have hlen := StabilityTracker.outstanding_length d.tracker
  have hwindow : d.tracker.window = recent config.agreement_n (ls ++ [a]) := hm.window
  refine ⟨?_, hyp, d.tracker.committed, hl, hcount, ?_, ?_⟩
  · rw [← hwindow, StabilityTracker.window_full hne, hm.n_eq]
  · intro i hi hlt
    rw [← hwindow]
    apply StabilityTracker.agreed_at
    simp only at hle
    omega
  · have hsurface : d.tracker.latest_surface = tokenise hyp.text := by
      rw [hm.surface, hl]
      rfl
    have htext : chunk.text = joinTokens (d.tracker.outstanding.take chunk.word_count) :=
      congrArg PhraseChunk.text hchunk
    rw [htext, StabilityTracker.outstanding_take _ _ hle, hsurface]

open ascii in
/-- A line whose first word settles only with its second hypothesis. -/
theorem only_agreed_words_are_committed_of_a_settling_line :
    ∃ s t out, (talks {} (by decide)).run [.feed (.spoken "Wee are going home now." false 0)] = some s ∧
      (talks {} (by decide)).run ([.feed (.spoken "Wee are going home now." false 0)] ++
        [.feed (.spoken "We are going home now." true 1)]) = some t ∧
      t.emitted = s.emitted ++ out ∧ ∀ done chunk rest, out = done ++ chunk :: rest →
        (recent 2 ([.feed (.spoken "Wee are going home now." false 0)] ++
          [.feed (.spoken "We are going home now." true 1)])).length = 2 := by
  obtain ⟨s, t, out, hs, ht, hem, hall⟩ := only_agreed_words_are_committed {} (by decide) (by decide)
    [.feed (.spoken "Wee are going home now." false 0)]
    (.feed (.spoken "We are going home now." true 1))
  exact ⟨s, t, out, hs, ht, hem, fun done chunk rest ho => (hall done chunk rest ho).1⟩

/-! ## The books of a talk -/

section

variable [Unicode] {config : ChunkerConfig} {h : 1 ≤ config.agreement_n} {ls : List Call} {t : Talk}

omit [Unicode] in
/-- The numbers, the word counts and the audio spans of the chunks so far, and
what the chunker goes on from. -/
structure Booked (t : Talk) : Prop where
  ids : t.emitted.map (·.chunk_id) = List.range t.emitted.length
  next_id : t.chunker.next_id = t.emitted.length
  counts : (t.emitted.map (·.word_count)).sum = t.chunker.tracker.committed
  starts : t.emitted.map (·.t_audio_start) = (0 :: t.emitted.map (·.t_audio_end)).dropLast
  cursor : t.chunker.audio_cursor = (0 :: t.emitted.map (·.t_audio_end)).getLast (by simp)

omit [Unicode] in
theorem booked_say (t : Talk) (hyp : Hypothesis) (stable : StablePrefix) (take : Nat)
    (reason : CommitReason) (now : Option ℚ) (hb : Booked t) :
    Booked (t.say hyp stable take reason now) := by
  obtain ⟨hids, hnext, hcounts, hstarts, hcursor⟩ := hb
  have hchunk : (t.chunker.commit hyp stable take reason now).2.chunk_id = t.chunker.next_id := rfl
  have hcount : (t.chunker.commit hyp stable take reason now).2.word_count = take := rfl
  have hstart : (t.chunker.commit hyp stable take reason now).2.t_audio_start =
      t.chunker.audio_cursor := rfl
  refine ⟨?_, ?_, ?_, ?_, ?_⟩
  · rw [Talk.say_emitted, List.map_append, hids, List.length_append, List.length_singleton,
      List.range_succ, List.map_singleton, hchunk, hnext]
  · rw [Talk.say_emitted, List.length_append, List.length_singleton, ← hnext]
    rfl
  · rw [Talk.say_emitted, List.map_append, List.sum_append, hcounts, List.map_singleton,
      List.sum_singleton, hcount, Talk.say_tracker]
  · rw [Talk.say_emitted, List.map_append, List.map_append, hstarts, List.map_singleton,
      List.map_singleton, hstart, hcursor, List.dropLast_append_getLast, ← List.cons_append,
      List.dropLast_concat]
  · simp only [Talk.say_emitted, List.map_append, List.map_singleton, ← List.cons_append,
      List.getLast_concat]
    rfl

theorem talks_booked (hr : (talks config h).run ls = some t) : Booked t :=
  talk_induction (P := fun _ t => Booked t) ⟨rfl, rfl, rfl, rfl, rfl⟩
    (fun _ t hyp hb => ⟨hb.ids, hb.next_id, by simpa using hb.counts, hb.starts, hb.cursor⟩)
    (fun _ _ _ _ hb => hb)
    (fun _ t hyp now stable take reason hb _ _ _ => booked_say t hyp stable take reason now hb) hr

/-- What holds of each chunk as its call emits it holds of every chunk of a
talk. -/
theorem emitted_induction {P : PhraseChunk → Prop}
    (hP : ∀ ls s a t done chunk rest, (talks config h).run ls = some s →
      (talks config h).step s a = some t → t.emitted = s.emitted ++ (done ++ chunk :: rest) → P chunk)
    (hr : (talks config h).run ls = some t) : ∀ chunk ∈ t.emitted, P chunk := by
  refine (talks config h).run_induction (P := fun _ t => ∀ chunk ∈ t.emitted, P chunk) ?_ ?_ hr
  · simp [talks]
  · intro ls s a t hs ih hstep chunk hchunk
    obtain ⟨out, -, hem⟩ := talks_step.mp hstep
    rw [hem, List.mem_append] at hchunk
    rcases hchunk with hchunk | hchunk
    · exact ih chunk hchunk
    · obtain ⟨done, rest, rfl⟩ := List.mem_iff_append.mp hchunk
      exact hP ls s a t done chunk rest hs hstep hem

/-- The count of a chunk is the number of its words. -/
theorem talks_count_words (hr : (talks config h).run ls = some t) :
    ∀ chunk ∈ t.emitted, chunk.word_count = chunk.words.length := by
  refine emitted_induction ?_ hr
  intro ls s a t done chunk rest hs hstep hem
  obtain ⟨hyp, now, d, stable, reason, hl, hm, -, hstable, hle, hchunk⟩ := step_emits hs hstep hem
  have htok : ∀ w ∈ d.tracker.latest_surface, IsToken w := by
    intro w hw
    rw [hm.surface, hl] at hw
    exact isToken_of_mem hw
  have hwords := words_of_commit hyp reason now htok hstable hle
  obtain ⟨-, rfl⟩ := StabilityTracker.stablePrefix_eq_some.mp hstable
  have hlen := StabilityTracker.outstanding_length d.tracker
  simp only at hle
  rw [← hchunk] at hwords
  rw [hwords, List.length_take, List.length_drop]
  omega

theorem talks_sized (hmin : 1 ≤ config.min_words) (hmax : 1 ≤ config.max_words)
    (hr : (talks config h).run ls = some t) : ∀ chunk ∈ t.emitted, Sized config chunk := by
  refine emitted_induction ?_ hr
  intro ls s a t done chunk rest hs hstep hem
  obtain ⟨out, hcall, hout⟩ := talks_step.mp hstep
  rw [hem, List.append_cancel_left_eq] at hout
  have hconfig := (talks_config hs).1
  rw [← hconfig] at hmin hmax
  have hsized := PhraseChunker.call_sized hmin hmax hcall chunk
  rw [hconfig, ← hout] at hsized
  exact hsized (by simp)

end

/-- The chunks are numbered 0, 1, 2, ... and each starts where the one before it
ended. The count of a chunk is the number of its words, within the bounds that
its reason sets, and the counts add up to the words committed. -/
theorem chunks_are_booked [Unicode] (config : ChunkerConfig) (h : 1 ≤ config.agreement_n)
    (hmin : 1 ≤ config.min_words) (hmax : 1 ≤ config.max_words) (ls : List Call) :
    ∃ t, (talks config h).run ls = some t ∧
      t.emitted.map (·.chunk_id) = List.range t.emitted.length ∧
      (∀ chunk ∈ t.emitted, chunk.word_count = (tokenise chunk.text).length ∧
        1 ≤ chunk.word_count ∧ chunk.word_count ≤ config.max_words ∧
        (chunk.reason = .maxWords → chunk.word_count = config.max_words) ∧
        (chunk.reason = .clause ∨ chunk.reason = .stabilityTimeout →
          config.min_words ≤ chunk.word_count)) ∧
      (t.emitted.map (·.word_count)).sum = t.chunker.tracker.committed ∧
      t.emitted.map (·.t_audio_start) = (0 :: t.emitted.map (·.t_audio_end)).dropLast := by
  obtain ⟨t, ht⟩ := talks_total config h hmax ls
  have hbooked := talks_booked ht
  refine ⟨t, ht, hbooked.ids, ?_, hbooked.counts, hbooked.starts⟩
  intro chunk hchunk
  have hsized := talks_sized hmin hmax ht chunk hchunk
  exact ⟨talks_count_words ht chunk hchunk, hsized.pos, hsized.ceiling, hsized.full, hsized.floor⟩

open ascii in
/-- A short ceiling: every chunk has one or two words. -/
theorem chunks_are_booked_of_short_chunks :
    ∃ t, (talks { min_words := 1, max_words := 2 } (by decide)).run
        [.feed (.spoken "we are going home now" true 0)] = some t ∧
      ∀ chunk ∈ t.emitted, 1 ≤ chunk.word_count ∧ chunk.word_count ≤ 2 := by
  obtain ⟨t, ht, -, hsized, -⟩ := chunks_are_booked { min_words := 1, max_words := 2 } (by decide)
    (by decide) (by decide) [.feed (.spoken "we are going home now" true 0)]
  exact ⟨t, ht, fun chunk hc => ⟨(hsized chunk hc).2.1, (hsized chunk hc).2.2.1⟩⟩

end lad_translate.phrase_chunker
