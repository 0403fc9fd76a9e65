-- What a drain emits (chunker/chunker.py): the outstanding words, in pieces of
-- max_words. It leaves nothing outstanding, so until the next hypothesis comes
-- there is nothing more to drain.
import LadTranslate.Blocks
import LadTranslate.Emissions

open machines blocks

namespace lad_translate.phrase_chunker

namespace PhraseChunker

variable {c c' : PhraseChunker} {hyp : Hypothesis} {reason : CommitReason} {now : Option ℚ}
  {fuel : Nat} {out : List PhraseChunk}

/-! ## The pieces -/

/-- One turn of the loop. -/
theorem emitAllLoop_turn {stable : StablePrefix} (hs : c.tracker.stablePrefix = some stable)
    (hyp : Hypothesis) (reason : CommitReason) (now : Option ℚ) (fuel : Nat) :
    emitAllLoop hyp reason now (fuel + 1) c =
      (emitAllLoop hyp reason now fuel
        (c.commit hyp stable (min stable.tokens.length c.config.max_words) reason now).1).map
        fun r => (r.1,
          (c.commit hyp stable (min stable.tokens.length c.config.max_words) reason now).2 :: r.2) := by
  rw [emitAllLoop, hs]

theorem emitAllLoop_idle (hs : c.tracker.stablePrefix = none) (hyp : Hypothesis)
    (reason : CommitReason) (now : Option ℚ) (fuel : Nat) :
    emitAllLoop hyp reason now (fuel + 1) c = some (c, []) := by
  rw [emitAllLoop, hs]

/-- A chunk that takes no more than there is holds the first outstanding words. -/
theorem commit_words (hyp : Hypothesis) (reason : CommitReason) (now : Option ℚ)
    (htok : ∀ w ∈ c.tracker.latest_surface, IsToken w)
    {stable : StablePrefix} {take : Nat} (hs : c.tracker.stablePrefix = some stable)
    (ht : take ≤ stable.tokens.length) :
    (c.commit hyp stable take reason now).2.words = c.tracker.outstanding.take take := by
  have hwords := words_of_commit hyp reason now htok hs ht
  obtain ⟨-, rfl⟩ := StabilityTracker.stablePrefix_eq_some.mp hs
  rw [hwords, StabilityTracker.outstanding_take c.tracker take ht]

/-- The loop cuts the outstanding words into pieces of `max_words`, one for each
chunk, and a chunk counts its words. -/
theorem emitAllLoop_pieces (hmax : 1 ≤ c.config.max_words)
    (htok : ∀ w ∈ c.tracker.latest_surface, IsToken w)
    (h : emitAllLoop hyp reason now fuel c = some (c', out)) :
    out.map PhraseChunk.words = pieces c.config.max_words c.tracker.outstanding ∧
      ∀ chunk ∈ out, chunk.words.length = chunk.word_count := by
  induction fuel generalizing c c' out with
  | zero => cases h
  | succ fuel ih =>
    cases hs : c.tracker.stablePrefix with
    | none =>
      rw [emitAllLoop_idle hs] at h
      cases h
      rw [StabilityTracker.stablePrefix_eq_none.mp hs]
      simp
    | some stable =>
      rw [emitAllLoop_turn hs] at h
      obtain ⟨⟨d, chunks⟩, hloop, hr⟩ := Option.map_eq_some_iff.mp h
      cases hr
      have hwords := commit_words hyp reason now htok hs (min_le_left _ c.config.max_words)
      obtain ⟨hne, rfl⟩ := StabilityTracker.stablePrefix_eq_some.mp hs
      obtain ⟨hpieces, hcounts⟩ := ih (c := (c.commit hyp _ _ reason now).1) hmax htok hloop
      constructor
      · rw [List.map_cons, hpieces, hwords, outstanding_of_commit, commit_config, min_comm,
          ← List.take_eq_take_min, ← List.drop_eq_drop_min, pieces_of_ne_nil hmax hne]
      · intro chunk hchunk
        rcases List.mem_cons.mp hchunk with rfl | hchunk
        · rw [hwords, List.length_take_of_le (min_le_left _ _)]
          rfl
        · exact hcounts chunk hchunk

/-- More fuel gives the same drain. -/
theorem emitAllLoop_more {fuel' : Nat} {r : PhraseChunker × List PhraseChunk}
    (h : emitAllLoop hyp reason now fuel c = some r) (hle : fuel ≤ fuel') :
    emitAllLoop hyp reason now fuel' c = some r := by
  induction fuel generalizing c fuel' r with
  | zero => cases h
  | succ fuel ih =>
    obtain ⟨m, rfl⟩ := Nat.exists_eq_add_of_le' (Nat.one_le_of_lt hle)
    cases hs : c.tracker.stablePrefix with
    | none => rwa [emitAllLoop_idle hs] at h ⊢
    | some stable =>
      rw [emitAllLoop_turn hs] at h ⊢
      obtain ⟨r', hr', rfl⟩ := Option.map_eq_some_iff.mp h
      rw [ih hr' (Nat.le_of_succ_le_succ hle), Option.map_some]

/-! ## Nothing to drain -/

theorem emitAll_idle (hyp : Hypothesis) (reason : CommitReason) (now : Option ℚ)
    (h : c.tracker.stablePrefix = none) : c.emitAll hyp reason now = some (c, []) :=
  emitAllLoop_idle h hyp reason now _

theorem tick_idle (h : c.tracker.stablePrefix = none) (now : ℚ) : c.tick now = some (c, []) := by
  unfold tick
  split
  · split
    · rfl
    · exact emitAll_idle _ _ _ h
  · rfl

theorem flush_idle (h : c.tracker.stablePrefix = none) : c.flush = some (c, []) := by
  unfold flush
  split
  · rfl
  · exact emitAll_idle _ _ _ h

end PhraseChunker

section

variable [Unicode]

@[simp] theorem PhraseChunker.told_config (c : PhraseChunker) (a : Call) :
    (c.told a).config = c.config := by
  cases a <;> rfl

/-- What a chunker keeps, it keeps when it is told the hypothesis of a call. -/
theorem faithful_told {t : Talk} (h : Faithful t) (a : Call) :
    Faithful ⟨t.chunker.told a, t.emitted⟩ := by
  cases a with
  | feed hyp => exact faithful_hear t hyp h
  | tick now => exact h
  | flush => exact h

/-- A drain ends. It cuts the outstanding words into ⌈k / max_words⌉ chunks, all
of `max_words` words but the last, and after it there is nothing to drain. -/
theorem a_drain_cuts_the_outstanding_words (config : ChunkerConfig)
    (h : 1 ≤ config.agreement_n) (hmax : 1 ≤ config.max_words) (ls : List Call) (a : Call)
    (hyp : Hypothesis) (reason : CommitReason) (now : Option ℚ) :
    ∃ s c' out, (talks config h).run ls = some s ∧
      (∀ fuel, (s.chunker.told a).tracker.outstanding.length < fuel →
        PhraseChunker.emitAllLoop hyp reason now fuel (s.chunker.told a) = some (c', out)) ∧
      out.length = (s.chunker.told a).tracker.outstanding.length ⌈/⌉ config.max_words ∧
      out.flatMap PhraseChunk.words = (s.chunker.told a).tracker.outstanding ∧
      (∀ chunk ∈ out.dropLast, chunk.word_count = config.max_words) ∧
      (∀ chunk ∈ out, 1 ≤ chunk.word_count ∧ chunk.word_count ≤ config.max_words ∧
        chunk.words.length = chunk.word_count) ∧
      c'.tracker.stablePrefix = none ∧
      (∀ later, c'.tick later = some (c', [])) ∧ c'.flush = some (c', []) := by
  obtain ⟨s, hs⟩ := talks_total config h hmax ls
  have hconfig : (s.chunker.told a).config = config := by
    rw [PhraseChunker.told_config, (talks_config hs).1]
  have htok := (faithful_told (talks_faithful hs) a).tokens
  have hmax' : 1 ≤ (s.chunker.told a).config.max_words := by rwa [hconfig]
  obtain ⟨⟨c', out⟩, hloop⟩ := (s.chunker.told a).emitAll_ends hyp reason now hmax'
  obtain ⟨hpieces, hcounts⟩ := PhraseChunker.emitAllLoop_pieces hmax' htok hloop
  have hidle := StabilityTracker.stablePrefix_eq_none.mpr (PhraseChunker.emitAll_commits hloop).2
  rw [hconfig] at hpieces
  refine ⟨s, c', out, hs, fun fuel hfuel => PhraseChunker.emitAllLoop_more hloop hfuel, ?_, ?_, ?_,
    ?_, hidle, PhraseChunker.tick_idle hidle, PhraseChunker.flush_idle hidle⟩
  · rw [← pieces_length hmax, ← hpieces, List.length_map]
  · rw [List.flatMap_def, hpieces, pieces_flatten hmax]
  · intro chunk hchunk
    rw [← hcounts chunk (List.mem_of_mem_dropLast hchunk)]
    apply length_of_mem_dropLast (l := (s.chunker.told a).tracker.outstanding)
    rw [← hpieces, ← List.map_dropLast]
    exact List.mem_map_of_mem hchunk
  · intro chunk hchunk
    have hpiece : chunk.words ∈ pieces config.max_words (s.chunker.told a).tracker.outstanding :=
      hpieces ▸ List.mem_map_of_mem hchunk
    have hsize := length_of_mem_pieces hmax hpiece
    rw [hcounts chunk hchunk] at hsize
    exact ⟨hsize.1, hsize.2, hcounts chunk hchunk⟩

end

/-- A final of seven words. -/
def sevenWords : Hypothesis := .spoken "we are going to Dubai next month" true 1

open ascii in
/-- Seven words, three at a time. -/
theorem a_drain_cuts_seven_words :
    ∃ s c' out, (talks { max_words := 3 } (by decide)).run [] = some s ∧
      PhraseChunker.emitAllLoop sevenWords .final none 8 (s.chunker.told (.feed sevenWords)) =
        some (c', out) ∧
      out.length = 3 ∧ c'.flush = some (c', []) := by
  obtain ⟨s, c', out, hrun, hends, hlength, -, -, -, -, -, hflush⟩ :=
    a_drain_cuts_the_outstanding_words { max_words := 3 } (by decide) (by decide) []
      (.feed sevenWords) sevenWords .final none
  have hseven : ((talks { max_words := 3 } (by decide)).run []).map
      (fun s => (s.chunker.told (.feed sevenWords)).tracker.outstanding.length) = some 7 := by
    decide +kernel
  rw [hrun, Option.map_some, Option.some.injEq] at hseven
  rw [hseven] at hends hlength
  exact ⟨s, c', out, hrun, hends 8 (by decide), hlength, hflush⟩

end lad_translate.phrase_chunker
