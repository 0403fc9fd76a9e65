-- The chunker on hypotheses that one word clock stamped. The stamps of a clock
-- go up along the text, and a word that is stamped anew gets a later stamp, so
-- no word to come ends before the last one that was committed.
import LadTranslate.Clocks
import LadTranslate.Cuts

namespace lad_translate.stt_fastconformer

open phrase_chunker

/-- Hypotheses that end at or after 0, and in order. -/
structure Timely (hyps : List Hypothesis) : Prop where
  nonneg : ∀ hyp ∈ hyps, 0 ≤ hyp.t_audio_end
  in_order : hyps.Pairwise fun x y => x.t_audio_end ≤ y.t_audio_end

theorem Timely.of_append {xs ys : List Hypothesis} (h : Timely (xs ++ ys)) : Timely xs := by
  obtain ⟨hnonneg, horder⟩ := h
  refine ⟨?_, (List.pairwise_append.mp horder).1⟩
  intro hyp hmem
  exact hnonneg hyp (List.mem_append_left _ hmem)

theorem Timely.newest {older : List Hypothesis} {hyp : Hypothesis}
    (h : Timely (older ++ [hyp])) :
    (hyp :: older.reverse).Pairwise fun x y => y.t_audio_end ≤ x.t_audio_end := by
  have hall := List.pairwise_reverse.mpr h.in_order
  rw [List.reverse_append] at hall
  exact hall

/-- No word to come carries a stamp before the cursor. The hypotheses are given
the newest first. -/
def Ahead (c : PhraseChunker) : List Hypothesis → Prop
  | [] => c.audio_cursor = 0
  | hyp :: older => ∀ i, c.tracker.committed ≤ i → c.audio_cursor ≤ stoodSince hyp i older

/-- A word keeps its stamp in the next hypothesis, or gets one at the end of
it. -/
theorem Ahead.hear {c d : PhraseChunker} {hyp : Hypothesis} {hyps : List Hypothesis}
    (h : Ahead c hyps) (hcursor : d.audio_cursor = c.audio_cursor)
    (hcommitted : d.tracker.committed = c.tracker.committed) (hnonneg : 0 ≤ hyp.t_audio_end)
    (horder : (hyp :: hyps).Pairwise fun x y => y.t_audio_end ≤ x.t_audio_end) :
    Ahead d (hyp :: hyps) := by
  intro i hi
  rw [hcursor]
  rw [hcommitted] at hi
  cases hyps with
  | nil =>
    have hzero : c.audio_cursor = 0 := h
    rw [hzero]
    exact hnonneg
  | cons prev older =>
    have hbehind := h i hi
    unfold stoodSince
    split
    · exact hbehind
    · have hprev := List.rel_of_pairwise_cons horder List.mem_cons_self
      exact (hbehind.trans (stoodSince_le horder.of_cons i)).trans hprev

/-- Commits from stamped words go ahead with the cursor. -/
theorem Ahead.commits {c c' : PhraseChunker} {hyp : Hypothesis} {older : List Hypothesis}
    {now : Option ℚ} {out : List PhraseChunk} (hc : PhraseChunker.Commits hyp now c out c')
    (hpos : ∀ chunk ∈ out, 1 ≤ chunk.word_count)
    (hsurface : c.tracker.latest_surface = tokenise hyp.text)
    (hstop : ∀ i, 0 < i → i ≤ (tokenise hyp.text).length →
      PhraseChunker.wordEndTime hyp i = stoodSince hyp i older)
    (horder : (hyp :: older).Pairwise fun x y => y.t_audio_end ≤ x.t_audio_end)
    (h : Ahead c (hyp :: older)) :
    Ahead c' (hyp :: older) ∧ ∀ chunk ∈ out, chunk.t_audio_start ≤ chunk.t_audio_end := by
  induction hc with
  | nil c => exact ⟨h, by simp⟩
  | @cons c c' stable take reason out hs ht rest ih =>
    obtain ⟨hne, rfl⟩ := StabilityTracker.stablePrefix_eq_some.mp hs
    have htake : 1 ≤ take := hpos _ List.mem_cons_self
    have hlength := StabilityTracker.outstanding_length c.tracker
    rw [hsurface] at hlength
    simp only at ht
    have hread := hstop (c.tracker.committed + take) (by omega) (by omega)
    have hstart : c.audio_cursor ≤ stoodSince hyp (c.tracker.committed + take) older :=
      h (c.tracker.committed + take) (Nat.le_add_right _ _)
    have hnext : Ahead (c.commit hyp ⟨c.tracker.outstanding, c.tracker.firstSeenWall⟩ take reason
        now).1 (hyp :: older) := by
      intro i hi
      show PhraseChunker.wordEndTime hyp (c.tracker.committed + take) ≤ _
      rw [hread]
      exact stoodSince_mono horder hi
    obtain ⟨hlast, hrest⟩ := ih (fun chunk hmem => hpos chunk (List.mem_cons_of_mem _ hmem))
      hsurface hnext
    refine ⟨hlast, ?_⟩
    intro chunk hmem
    rcases List.mem_cons.mp hmem with rfl | hmem
    · show c.audio_cursor ≤ PhraseChunker.wordEndTime hyp (c.tracker.committed + take)
      rw [hread]
      exact hstart
    · exact hrest chunk hmem

section

variable [Unicode] {config : ChunkerConfig} {h : 1 ≤ config.agreement_n} {ls : List Call}
  {s t : Talk} {a : Call} {earlier : List Hypothesis}

omit [Unicode] in
theorem fed_snoc (ls : List Call) (a : Call) :
    (ls ++ [a]).filterMap Call.fed = ls.filterMap Call.fed ++ a.fed.toList := by
  rw [List.filterMap_append]
  cases a <;> rfl

theorem Ahead.told {c : PhraseChunker} (hc : Ahead c (earlier ++ ls.filterMap Call.fed).reverse)
    (htimely : Timely (earlier ++ (ls ++ [a]).filterMap Call.fed)) :
    Ahead (c.told a) (earlier ++ (ls ++ [a]).filterMap Call.fed).reverse := by
  rw [fed_snoc, ← List.append_assoc] at htimely ⊢
  cases a with
  | feed hyp =>
    have hreverse : (earlier ++ ls.filterMap Call.fed ++ (Call.feed hyp).fed.toList).reverse =
        hyp :: (earlier ++ ls.filterMap Call.fed).reverse := by
      simp [Call.fed]
    rw [hreverse]
    refine hc.hear rfl (PhraseChunker.told_committed c (.feed hyp)) ?_ htimely.newest
    exact htimely.nonneg hyp (by simp [Call.fed])
  | tick now =>
    rw [show (Call.tick now).fed.toList = [] from rfl, List.append_nil]
    exact hc
  | flush =>
    rw [show Call.flush.fed.toList = [] from rfl, List.append_nil]
    exact hc

omit [Unicode] in
/-- A cursor at 0 is not past any stamp. -/
theorem ahead_start {c : PhraseChunker} (hc : c.audio_cursor = 0) (htimely : Timely earlier) :
    Ahead c earlier.reverse := by
  induction earlier using List.reverseRecOn with
  | nil => exact hc
  | append_singleton earlier hyp ih =>
    rw [List.reverse_append]
    refine (ih htimely.of_append).hear rfl rfl ?_ htimely.newest
    exact htimely.nonneg hyp (by simp)

/-- Along a talk the cursor never passes the stamp of a word to come. -/
theorem ahead_of_run (hmin : 1 ≤ config.min_words) (hmax : 1 ≤ config.max_words) {d : WordClock}
    (hstamped : Stamped .fresh (earlier ++ ls.filterMap Call.fed) d)
    (htimely : Timely (earlier ++ ls.filterMap Call.fed))
    (hr : (talks config h).run ls = some t) :
    Ahead t.chunker (earlier ++ ls.filterMap Call.fed).reverse ∧
      ∀ chunk ∈ t.emitted, chunk.t_audio_start ≤ chunk.t_audio_end := by
  refine (talks config h).run_induction (P := fun ls t =>
    (∃ d, Stamped .fresh (earlier ++ ls.filterMap Call.fed) d) →
    Timely (earlier ++ ls.filterMap Call.fed) →
    Ahead t.chunker (earlier ++ ls.filterMap Call.fed).reverse ∧
      ∀ chunk ∈ t.emitted, chunk.t_audio_start ≤ chunk.t_audio_end) ?_ ?_ hr ⟨d, hstamped⟩ htimely
  · intro _ htimely
    rw [List.filterMap_nil, List.append_nil] at htimely ⊢
    exact ⟨ahead_start rfl htimely, by simp [talks]⟩
  · rintro ls s a t hs ih hstep ⟨d, hstamped⟩ htimely
    have hfed := fed_snoc ls a
    obtain ⟨hahead, hspans⟩ := ih
      (by rw [hfed, ← List.append_assoc] at hstamped; exact hstamped.of_append)
      (by rw [hfed, ← List.append_assoc] at htimely; exact htimely.of_append)
    have htold := hahead.told htimely
    obtain ⟨hm, out, hem, hcalls⟩ := step_commits hs hstep
    rcases hcalls with ⟨rfl, hc⟩ | ⟨hyp, now, hl, hc⟩
    · rw [List.append_nil] at hem
      rw [hc, hem]
      exact ⟨htold, hspans⟩
    · -- the words come from the newest hypothesis
      obtain ⟨older, holder⟩ := List.getLast?_eq_some_iff.mp hl
      rw [holder, ← List.append_assoc] at hstamped htimely htold ⊢
      have hsurface := hm.surface
      rw [hl] at hsurface
      have hreverse : (earlier ++ older ++ [hyp]).reverse = hyp :: (earlier ++ older).reverse :=
        List.reverse_append
      rw [hreverse] at htold ⊢
      have hpos : ∀ chunk ∈ out, 1 ≤ chunk.word_count := by
        have hsized := talks_sized hmin hmax ((talks config h).run_snoc_some.mpr ⟨s, hs, hstep⟩)
        intro chunk hmem
        apply (hsized chunk ?_).pos
        rw [hem]
        exact List.mem_append_right _ hmem
      obtain ⟨hlast, hnew⟩ := Ahead.commits hc hpos hsurface
        (fun i h0 hi => wordEndTime_stamped hstamped rfl h0 hi) htimely.newest htold
      refine ⟨hlast, ?_⟩
      intro chunk hmem
      rw [hem] at hmem
      rcases List.mem_append.mp hmem with hmem | hmem
      · exact hspans chunk hmem
      · exact hnew chunk hmem

/-- Spans that follow one another and are in order end in order. -/
theorem ends_in_order (hr : (talks config h).run ls = some t)
    (hspans : ∀ chunk ∈ t.emitted, chunk.t_audio_start ≤ chunk.t_audio_end) :
    (t.emitted.map (·.t_audio_end)).Pairwise (· ≤ ·) := by
  have hwalk := (talks_walk hr).spans
  have hordered := walk_ordered_iff 0 (((talks config h).history cutsOf ls).map Cut.stop)
  rw [← hwalk, List.forall_mem_map] at hordered
  have hchain := hordered.mp hspans
  have hends : t.emitted.map (·.t_audio_end) =
      ((talks config h).history cutsOf ls).map Cut.stop := by
    rw [← walk_snd 0 (((talks config h).history cutsOf ls).map Cut.stop), ← hwalk, List.map_map]
    rfl
  rw [hends]
  exact (List.isChain_iff_pairwise.mp hchain).of_cons

omit [Unicode] in
/-- A chunk ends at the stamp of its last word. -/
theorem chunk_ends_at_stamp {d : PhraseChunker} {hyp : Hypothesis} {words : List WordTiming}
    {stable : StablePrefix} {reason : CommitReason} {now : Option ℚ} {chunk : PhraseChunk}
    (hwords : hyp.words = some words) (htexts : words.map (·.word) = tokenise hyp.text)
    (hsurface : d.tracker.latest_surface = tokenise hyp.text)
    (hstable : d.tracker.stablePrefix = some stable) (hpos : 1 ≤ chunk.word_count)
    (hle : chunk.word_count ≤ stable.tokens.length)
    (hchunk : chunk = (d.commit hyp stable chunk.word_count reason now).2) :
    ∃ stamp, words[d.tracker.committed + chunk.word_count - 1]? = some stamp ∧
      chunk.words.getLast? = some stamp.word ∧ chunk.t_audio_end = stamp.t_audio_end := by
  have htok : ∀ w ∈ d.tracker.latest_surface, IsToken w := by
    intro w hw
    rw [hsurface] at hw
    exact isToken_of_mem hw
  have htook := words_of_commit hyp reason now htok hstable hle
  rw [← hchunk] at htook
  have hend : chunk.t_audio_end =
      PhraseChunker.wordEndTime hyp (d.tracker.committed + chunk.word_count) :=
    congrArg PhraseChunk.t_audio_end hchunk
  obtain ⟨-, rfl⟩ := StabilityTracker.stablePrefix_eq_some.mp hstable
  have hlength := StabilityTracker.outstanding_length d.tracker
  have hcount : (tokenise hyp.text).length = words.length := by
    rw [← htexts, List.length_map]
  rw [hsurface] at hlength
  simp only at hle
  obtain ⟨k, hk⟩ : ∃ k, d.tracker.committed + chunk.word_count = k + 1 :=
    ⟨d.tracker.committed + chunk.word_count - 1, by omega⟩
  have hlt : k < words.length := by omega
  rw [hk] at hend ⊢
  refine ⟨words[k], List.getElem?_eq_getElem hlt, ?_, ?_⟩
  · have hat : d.tracker.committed + (chunk.word_count - 1) = k := by omega
    rw [htook, List.getLast?_take, if_neg (by omega), List.getElem?_drop, hat, hsurface, ← htexts,
      List.getElem?_map, List.getElem?_eq_getElem hlt]
    rfl
  · rw [hend, wordEndTime_words hwords hlt]

end

/-- In a talk whose hypotheses one clock stamped, and whose audio goes on, every
chunk ends where it starts or later, and no earlier than the one before it. It
ends at the stamp of its last word in the newest hypothesis. -/
theorem stamped_chunks_are_in_order [Unicode] (config : ChunkerConfig)
    (h : 1 ≤ config.agreement_n) (hmin : 1 ≤ config.min_words) (hmax : 1 ≤ config.max_words)
    (earlier : List Hypothesis) (ls : List Call) (clock : WordClock)
    (hstamped : Stamped .fresh (earlier ++ ls.filterMap Call.fed) clock)
    (htimely : Timely (earlier ++ ls.filterMap Call.fed)) :
    ∃ t, (talks config h).run ls = some t ∧
      (∀ chunk ∈ t.emitted, chunk.t_audio_start ≤ chunk.t_audio_end) ∧
      (t.emitted.map (·.t_audio_end)).Pairwise (· ≤ ·) ∧
      ∀ before a after, ls = before ++ a :: after → ∃ s u out,
        (talks config h).run before = some s ∧ (talks config h).run (before ++ [a]) = some u ∧
        u.emitted = s.emitted ++ out ∧ ∀ done chunk rest, out = done ++ chunk :: rest →
          ∃ hyp words stamp, lastFed (before ++ [a]) = some hyp ∧ hyp.words = some words ∧
            words[s.chunker.tracker.committed + (done.map (·.word_count)).sum +
              chunk.word_count - 1]? = some stamp ∧
            chunk.words.getLast? = some stamp.word ∧ chunk.t_audio_end = stamp.t_audio_end := by
  obtain ⟨t, ht⟩ := talks_total config h hmax ls
  obtain ⟨-, hspans⟩ := ahead_of_run hmin hmax hstamped htimely ht
  refine ⟨t, ht, hspans, ends_in_order ht hspans, ?_⟩
  rintro before a after rfl
  obtain ⟨u, hu⟩ := talks_total config h hmax (before ++ [a])
  obtain ⟨s, hs, hstep⟩ := (talks config h).run_snoc_some.mp hu
  obtain ⟨-, out, hem, -⟩ := step_commits hs hstep
  refine ⟨s, u, out, hs, hu, hem, ?_⟩
  rintro done chunk rest rfl
  obtain ⟨hyp, now, d, stable, reason, hl, hm, hdone, hstable, hle, hchunk⟩ :=
    step_emits hs hstep hem
  have hcalls : earlier ++ (before ++ a :: after).filterMap Call.fed =
      (earlier ++ (before ++ [a]).filterMap Call.fed) ++ after.filterMap Call.fed := by
    rw [List.append_cons, List.filterMap_append, List.append_assoc]
  rw [hcalls] at hstamped
  obtain ⟨e, he⟩ := hstamped.of_append
  obtain ⟨older, holder⟩ := List.getLast?_eq_some_iff.mp hl
  rw [holder, ← List.append_assoc] at he
  obtain ⟨words, hwords, htexts, -⟩ := he.words
  have hsurface := hm.surface
  rw [hl] at hsurface
  have hpos := (talks_sized hmin hmax hu chunk (by rw [hem]; simp)).pos
  have hcommitted : d.tracker.committed =
      s.chunker.tracker.committed + (done.map (·.word_count)).sum := by
    rw [hdone.counts, PhraseChunker.told_committed]
  obtain ⟨stamp, hstamp, hlast, hend⟩ :=
    chunk_ends_at_stamp hwords htexts hsurface hstable hpos hle hchunk
  rw [hcommitted] at hstamp
  exact ⟨hyp, words, stamp, hl, hwords, hstamp, hlast, hend⟩

/-! ## A talk with stamps -/

/-- A hypothesis as a clock stamps it. -/
def stampedBy (clock : WordClock) (text : String) (is_final : Bool) (audio_end : ℚ) : Hypothesis :=
  { Hypothesis.spoken text is_final audio_end with words := some (clock.stamp text audio_end).2 }

open ascii in
/-- The second hypothesis revises the last word and goes on. -/
theorem stamped_chunks_are_in_order_in_a_revised_line :
    ∃ t, (talks { min_words := 1 } (by decide)).run
        [.feed (stampedBy .fresh "we are hum" false 1),
          .feed (stampedBy (WordClock.fresh.stamp "we are hum" 1).1 "we are home now" true 2)] =
        some t ∧ ∀ chunk ∈ t.emitted, chunk.t_audio_start ≤ chunk.t_audio_end := by
  have hstamped : Stamped .fresh
      ([] ++ [stampedBy .fresh "we are hum" false 1] ++
        [stampedBy (WordClock.fresh.stamp "we are hum" 1).1 "we are home now" true 2])
      ((WordClock.fresh.stamp "we are hum" 1).1.stamp "we are home now" 2).1 :=
    (Stamped.nil.snoc rfl).snoc rfl
  obtain ⟨t, ht, hspans, -⟩ := stamped_chunks_are_in_order { min_words := 1 } (by decide)
    (by decide) (by decide) []
    [.feed (stampedBy .fresh "we are hum" false 1),
      .feed (stampedBy (WordClock.fresh.stamp "we are hum" 1).1 "we are home now" true 2)] _ hstamped
    ⟨by simp [Call.fed, stampedBy, Hypothesis.spoken], by simp [Call.fed, stampedBy,
      Hypothesis.spoken]⟩
  exact ⟨t, ht, hspans⟩

end lad_translate.stt_fastconformer
