-- The laws of the wait ceiling: when an interim hypothesis commits a phrase
-- because `max_wait_s` is over. The tracker keeps one time for each agreed
-- LENGTH, the first one, so the wait that it measures belongs to a length and
-- not to a word.
import LadTranslate.Chunker

open machines prefixes dicts

namespace lad_translate.phrase_chunker

section

variable [Unicode]

/-- Held back only by the wait: fewer than `max_words` words, no usable cut,
and at least `min_words`. -/
def Held (config : ChunkerConfig) (tokens : List String) : Prop :=
  tokens ≠ [] ∧ tokens.length < config.max_words ∧
    (findBoundary tokens config.min_words (config.allow_conjunction_boundary &&
      decide ((tokens.length : ℚ) ≥ config.conjunction_threshold * config.max_words))).1 = 0 ∧
    config.min_words ≤ tokens.length

/-- The agreed words after these hypotheses, the last of them `hyp`, without
the committed ones. -/
def agreedWords (n committed : Nat) (hyps : List Hypothesis) (hyp : Hypothesis) : List String :=
  ((tokenise hyp.text).take (agreedAfter n hyps).length).drop committed

/-- The agreed word at position `k` has stayed as it is now since a hypothesis
that is not newer than the deadline. -/
def WordWaited (n k : Nat) (hyps : List Hypothesis) (deadline : ℚ) : Prop :=
  ∃ i old, hyps[i]? = some old ∧ old.t_wall ≤ deadline ∧
    ∀ j, i ≤ j → j < hyps.length →
      (agreedAfter n (hyps.take (j + 1)))[k]? = (agreedAfter n hyps)[k]?

/-- Some hypothesis that is not newer than the deadline had an agreed prefix
as long as the present one. -/
def LengthWaited (n : Nat) (hyps : List Hypothesis) (deadline : ℚ) : Prop :=
  ∃ i old, hyps[i]? = some old ∧ old.t_wall ≤ deadline ∧
    (agreedAfter n (hyps.take (i + 1))).length = (agreedAfter n hyps).length

/-- The feed of a hypothesis commits a phrase because the wait is over. -/
def TimesOut (t : Talk) (hyp : Hypothesis) : Prop :=
  ∃ c out, t.chunker.feed hyp = some (c, out) ∧
    ∃ chunk ∈ out, chunk.reason = .stabilityTimeout

/-- The feed times out exactly when the words are held and the oldest of them
has waited `max_wait_s`. -/
def CeilingKept (config : ChunkerConfig) (t : Talk) (hyps : List Hypothesis) (hyp : Hypothesis) :
    Prop :=
  let committed := t.chunker.tracker.committed
  TimesOut t hyp ↔
    Held config (agreedWords config.agreement_n committed hyps hyp) ∧
      WordWaited config.agreement_n committed hyps (hyp.t_wall - config.max_wait_s)

/-- The commit decision takes the last branch when the words are held, and
their length was first seen `max_wait_s` ago. -/
theorem tryEmit_times_out_iff (c : PhraseChunker) (hyp : Hypothesis) :
    (∃ chunk ∈ (c.tryEmit hyp).2, chunk.reason = .stabilityTimeout) ↔
      Held c.config c.tracker.outstanding ∧
        c.tracker.firstSeenWall ≤ hyp.t_wall - c.config.max_wait_s := by
  unfold PhraseChunker.tryEmit Held
  split
  · rename_i hnone
    rw [StabilityTracker.stablePrefix_eq_none.mp hnone]
    simp
  · rename_i stable hs
    obtain ⟨hne, rfl⟩ := StabilityTracker.stablePrefix_eq_some.mp hs
    simp only
    split_ifs with hmax hcut hlag
    · have hnot : ¬ c.tracker.outstanding.length < c.config.max_words := not_lt.mpr hmax
      simp [PhraseChunker.commit, hnot]
    · have hnot : _ ≠ 0 := Nat.pos_iff_ne_zero.mp hcut
      simp only [List.mem_singleton, exists_eq_left, PhraseChunker.commit, reduceCtorEq, false_iff]
      exact fun h => hnot h.1.2.2.1
    · simp only [List.mem_singleton, exists_eq_left, PhraseChunker.commit, true_iff]
      exact ⟨⟨hne, not_le.mp hmax, Nat.eq_zero_of_not_pos hcut, hlag.2⟩, by linarith [hlag.1]⟩
    · simp only [List.not_mem_nil, false_and, exists_false, false_iff]
      rintro ⟨⟨-, -, -, hmin⟩, hfirst⟩
      exact hlag ⟨by linarith, hmin⟩

theorem feed_interim {c : PhraseChunker} {hyp : Hypothesis} (h : hyp.is_final = false) :
    c.feed hyp = some ((c.heard hyp).tryEmit hyp) := by
  simp [PhraseChunker.feed, h]

/-- The committed count and the next chunks, read off an evaluated run. -/
theorem feed_of_evaluated {run : Option Talk} {t : Talk} {hyp : Hypothesis} {committed : Nat}
    {out : List PhraseChunk} (hr : run = some t)
    (h : run.bind (fun t => (t.chunker.feed hyp).map fun r =>
      (t.chunker.tracker.committed, r.2)) = some (committed, out)) :
    t.chunker.tracker.committed = committed ∧ ∃ c, t.chunker.feed hyp = some (c, out) := by
  subst hr
  rw [Option.bind_some, Option.map_eq_some_iff] at h
  obtain ⟨⟨c, out'⟩, hfeed, heq⟩ := h
  cases heq
  exact ⟨rfl, c, hfeed⟩

/-- An interim hypothesis is always taken, whatever the configuration. -/
theorem interims_run (config : ChunkerConfig) (h : 1 ≤ config.agreement_n)
    (hyps : List Hypothesis) (hint : ∀ x ∈ hyps, x.is_final = false) :
    ∃ t, (talks config h).run (hyps.map .feed) = some t := by
  induction hyps using List.reverseRecOn with
  | nil => exact ⟨_, rfl⟩
  | append_singleton hyps hyp ih =>
    obtain ⟨t, ht⟩ := ih fun x hx => hint x (by simp [hx])
    refine ⟨⟨((t.chunker.heard hyp).tryEmit hyp).1, t.emitted ++ ((t.chunker.heard hyp).tryEmit hyp).2⟩, ?_⟩
    rw [List.map_append, List.map_singleton, (talks config h).run_snoc_some]
    exact ⟨t, ht, talks_step.mpr ⟨_, feed_interim (hint hyp (by simp)), rfl⟩⟩

theorem sightings_sorted {n : Nat} {hyps : List Hypothesis}
    (hsorted : hyps.Pairwise fun x y => x.t_wall ≤ y.t_wall) :
    (sightings n hyps).Pairwise fun p q => p.2 ≤ q.2 := by
  have hwalls : (sightings n hyps).map Prod.snd = hyps.map (·.t_wall) := by
    induction hyps using List.reverseRecOn with
    | nil => rfl
    | append_singleton hyps hyp ih =>
      rw [sightings_snoc, List.map_append, List.map_append,
        ih (List.pairwise_append.mp hsorted).1]
      rfl
  have hmap : ((sightings n hyps).map Prod.snd).Pairwise (· ≤ ·) := by
    rw [hwalls, List.pairwise_map]
    exact hsorted
  exact List.pairwise_map.mp hmap

/-- The time kept for the present length is old exactly when that length was
seen before the deadline. -/
theorem firstSeenWall_le_iff {n : Nat} {ls : List Call} {t : Talk} {hyp : Hypothesis}
    (hm : Remembers n ls t) (hlast : lastFed ls = some hyp)
    (hsorted : (ls.filterMap Call.fed).Pairwise fun x y => x.t_wall ≤ y.t_wall) (deadline : ℚ) :
    t.chunker.tracker.firstSeenWall ≤ deadline ↔
      LengthWaited n (ls.filterMap Call.fed) deadline := by
  have hlen : t.chunker.tracker.agreedLength = (agreedAfter n (ls.filterMap Call.fed)).length := by
    rw [StabilityTracker.agreedLength_eq, hm.agreedPrefix]
  obtain ⟨ys, hys⟩ := List.getLast?_eq_some_iff.mp hlast
  -- the newest hypothesis has the present length, so there is a first one
  have hmem : ((agreedAfter n (ls.filterMap Call.fed)).length, hyp.t_wall) ∈
      sightings n (ls.filterMap Call.fed) := by
    rw [hys, sightings_snoc]
    simp
  obtain ⟨w, hw⟩ : ∃ w, (setdefaults ∅ (sightings n (ls.filterMap Call.fed))).lookup
      (agreedAfter n (ls.filterMap Call.fed)).length = some w := by
    rw [← Option.isSome_iff_exists, lookup_setdefaults, AList.lookup_empty, Option.none_or,
      Option.isSome_map, List.find?_isSome]
    exact ⟨_, hmem, by simp⟩
  rw [StabilityTracker.firstSeenWall, hm.first_seen, hlen, hw, Option.getD_some,
    lookup_setdefaults_le_iff (sightings_sorted hsorted) hw]
  constructor
  · rintro ⟨v, hv, hle⟩
    obtain ⟨i, old, hi, hk, rfl⟩ := mem_sightings.mp hv
    exact ⟨i, old, hi, hle, hk⟩
  · rintro ⟨i, old, hi, hle, hk⟩
    exact ⟨old.t_wall, mem_sightings.mpr ⟨i, old, hi, hk, rfl⟩, hle⟩

/-- A feed times out exactly when the words are held and their LENGTH waited. -/
theorem times_out_iff {config : ChunkerConfig} {h : 1 ≤ config.agreement_n}
    {hyps : List Hypothesis} {hyp : Hypothesis} {t : Talk}
    (hr : (talks config h).run (hyps.map .feed) = some t) (hint : hyp.is_final = false)
    (hsorted : (hyps ++ [hyp]).Pairwise fun x y => x.t_wall ≤ y.t_wall) :
    TimesOut t hyp ↔
      Held config (agreedWords config.agreement_n t.chunker.tracker.committed (hyps ++ [hyp]) hyp) ∧
        LengthWaited config.agreement_n (hyps ++ [hyp]) (hyp.t_wall - config.max_wait_s) := by
  have hm := (talks_remember hr).hear hyp
  have hfed : (hyps.map Call.feed ++ [Call.feed hyp]).filterMap Call.fed = hyps ++ [hyp] := by
    simp [List.filterMap_append, List.filterMap_map, Function.comp_def, Call.fed]
  have hfirst := firstSeenWall_le_iff hm (lastFed_feed _ hyp) (hfed.symm ▸ hsorted)
    (hyp.t_wall - config.max_wait_s)
  have hwords : (t.chunker.heard hyp).tracker.outstanding =
      agreedWords config.agreement_n t.chunker.tracker.committed (hyps ++ [hyp]) hyp := by
    have hagreed := hm.agreedPrefix
    rw [hfed] at hagreed
    rw [StabilityTracker.outstanding, StabilityTracker.agreedLength_eq, agreedWords, ← hagreed]
    simp [PhraseChunker.heard]
  have hconfig : (t.chunker.heard hyp).config = config := (talks_config hr).1
  rw [hfed] at hfirst
  rw [TimesOut, feed_interim hint, ← hfirst, ← hwords]
  conv_rhs => rw [← hconfig]
  refine Iff.trans ?_ (tryEmit_times_out_iff (t.chunker.heard hyp) hyp)
  constructor
  · rintro ⟨c, out, heq, hchunk⟩
    rw [Option.some.injEq] at heq
    rw [heq]
    exact hchunk
  · exact fun hchunk => ⟨_, _, rfl, hchunk⟩

/-- The ceiling does what it says exactly when, on the held words, an old
length is the same thing as an old word. -/
theorem the_wait_ceiling_is_kept_iff_lengths_age_like_words (config : ChunkerConfig)
    (h : 1 ≤ config.agreement_n) (hyps : List Hypothesis) (hyp : Hypothesis)
    (hint : ∀ x ∈ hyps ++ [hyp], x.is_final = false)
    (hsorted : (hyps ++ [hyp]).Pairwise fun x y => x.t_wall ≤ y.t_wall) :
    ∃ t, (talks config h).run (hyps.map .feed) = some t ∧
      (CeilingKept config t (hyps ++ [hyp]) hyp ↔
        (Held config (agreedWords config.agreement_n t.chunker.tracker.committed
            (hyps ++ [hyp]) hyp) →
          (LengthWaited config.agreement_n (hyps ++ [hyp]) (hyp.t_wall - config.max_wait_s) ↔
            WordWaited config.agreement_n t.chunker.tracker.committed (hyps ++ [hyp])
              (hyp.t_wall - config.max_wait_s)))) := by
  obtain ⟨t, hr⟩ := interims_run config h hyps fun x hx => hint x (by simp [hx])
  refine ⟨t, hr, ?_⟩
  rw [CeilingKept, times_out_iff hr (hint hyp (by simp)) hsorted]
  exact and_congr_right_iff

end

/-! ## The ceiling on two lines -/

open ascii

/-- Four words that stay, heard at 0, 1 and 2. -/
def stalled (t_wall : ℚ) : Hypothesis := .spoken "alpha beta gamma delta" false t_wall

/-- A line that stalls: its length ages with its words. -/
theorem the_wait_ceiling_is_kept_on_a_stalled_line :
    ∃ t, (talks {} (by decide)).run ([stalled 0, stalled 1].map .feed) = some t ∧
      CeilingKept {} t ([stalled 0, stalled 1] ++ [stalled 2]) (stalled 2) := by
  obtain ⟨t, hr, hiff⟩ := the_wait_ceiling_is_kept_iff_lengths_age_like_words {} (by decide)
    [stalled 0, stalled 1] (stalled 2) (by decide) (by decide +kernel)
  have hzero : ((talks {} (by decide)).run ([stalled 0, stalled 1].map .feed)).map
      (·.chunker.tracker.committed) = some 0 := by decide +kernel
  rw [hr, Option.map_some, Option.some.injEq] at hzero
  refine ⟨t, hr, hiff.mpr fun _ => ⟨fun _ => ?_, fun _ => ?_⟩⟩
  · rw [hzero]
    refine ⟨1, _, rfl, by decide +kernel, ?_⟩
    intro j hj hlt
    have hj : j = 1 ∨ j = 2 := by
      simp only [List.length_append, List.length_cons, List.length_nil] at hlt
      omega
    rcases hj with rfl | rfl <;> decide +kernel
  · exact ⟨1, _, rfl, by decide +kernel, by decide +kernel⟩

/-- A line that grows by a word each time. -/
def growing : List Hypothesis := [.spoken "alpha beta gamma delta" false 0,
  .spoken "alpha beta gamma delta eta" false (1 / 2)]

/-- The hypothesis that comes when "alpha" has been agreed for a second. -/
def grown : Hypothesis := .spoken "alpha beta gamma delta eta theta" false (3 / 2)

theorem growing_evaluated : ((talks {} (by decide)).run (growing.map .feed)).bind (fun t =>
    (t.chunker.feed grown).map fun r => (t.chunker.tracker.committed, r.2)) = some (0, []) := by
  decide +kernel

theorem growing_waited : WordWaited 2 0 (growing ++ [grown]) (grown.t_wall - 1) := by
  refine ⟨1, _, rfl, by decide +kernel, ?_⟩
  intro j hj hlt
  have hj : j = 1 ∨ j = 2 := by
    simp only [growing, List.length_append, List.length_cons, List.length_nil] at hlt
    omega
  rcases hj with rfl | rfl <;> decide +kernel

/-- "alpha" is agreed from 1/2 on, and the feed at 3/2 releases nothing,
because five words were not agreed before. -/
theorem the_wait_ceiling_is_broken_by_a_growing_line :
    ∃ t, (talks {} (by decide)).run (growing.map .feed) = some t ∧
      ¬ CeilingKept {} t (growing ++ [grown]) grown := by
  obtain ⟨t, hr⟩ := interims_run {} (by decide) growing (by decide)
  obtain ⟨hzero, c, hfeed⟩ := feed_of_evaluated hr growing_evaluated
  refine ⟨t, hr, ?_⟩
  intro hkept
  rw [CeilingKept, hzero] at hkept
  have hheld : Held {} (agreedWords 2 0 (growing ++ [grown]) grown) := by
    unfold Held
    decide +kernel
  obtain ⟨c', out', hfeed', chunk, hmem, -⟩ := hkept.mpr ⟨hheld, growing_waited⟩
  rw [hfeed] at hfeed'
  cases hfeed'
  simp at hmem

end lad_translate.phrase_chunker
