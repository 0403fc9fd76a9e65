-- The cuts of a talk: which word of which hypothesis each chunk ends with. A
-- chunk starts where the one before it ended, and it ends where its hypothesis
-- puts its last word.
import LadTranslate.Emissions

open machines

namespace lad_translate.phrase_chunker

/-- The end of a chunk: after so many words of the transcript, in the
hypothesis that it was committed from. -/
structure Cut where
  hyp : Hypothesis
  count : Nat

namespace Cut

/-- The words of the hypothesis. -/
def words (k : Cut) : Nat := (tokenise k.hyp.text).length

/-- Where the hypothesis puts its last word, as a position in the audio. -/
def stop (k : Cut) : ℚ := PhraseChunker.wordEndTime k.hyp k.count

end Cut

/-- The cuts of chunks that were committed one after another. -/
def cutsFrom (hyp : Hypothesis) : Nat → List PhraseChunk → List Cut
  | _, [] => []
  | committed, chunk :: out =>
    ⟨hyp, committed + chunk.word_count⟩ :: cutsFrom hyp (committed + chunk.word_count) out

/-- The cuts of a call. -/
def cutsOf (s : Talk) (_ : Call) (t : Talk) : List Cut :=
  match t.chunker.last_hyp with
  | none => []
  | some hyp => cutsFrom hyp s.chunker.tracker.committed (t.emitted.drop s.emitted.length)

/-! ## Positions one after another -/

/-- From a position to each of the positions in turn. -/
def walk : ℚ → List ℚ → List (ℚ × ℚ)
  | _, [] => []
  | p, q :: qs => (p, q) :: walk q qs

theorem walk_append (p : ℚ) (qs rs : List ℚ) :
    walk p (qs ++ rs) = walk p qs ++ walk (qs.getLastD p) rs := by
  induction qs generalizing p with
  | nil => rfl
  | cons q qs ih =>
    rw [List.cons_append, walk, walk, ih, List.cons_append, List.getLastD_cons]

theorem walk_snd (p : ℚ) (qs : List ℚ) : (walk p qs).map Prod.snd = qs := by
  induction qs generalizing p with
  | nil => rfl
  | cons q qs ih => rw [walk, List.map_cons, ih]

theorem walk_ordered_iff (p : ℚ) (qs : List ℚ) :
    (∀ x ∈ walk p qs, x.1 ≤ x.2) ↔ (p :: qs).IsChain (· ≤ ·) := by
  induction qs generalizing p with
  | nil => simp [walk]
  | cons q qs ih =>
    rw [walk, List.forall_mem_cons, ih, List.isChain_cons_cons]

/-- The span of a chunk. -/
def PhraseChunk.span (c : PhraseChunk) : ℚ × ℚ := (c.t_audio_start, c.t_audio_end)

/-! ## The cuts of a history -/

/-- Commits walk through the ends of their cuts. -/
theorem commits_walk {hyp : Hypothesis} {now : Option ℚ} {c c' : PhraseChunker}
    {out : List PhraseChunk} (hc : PhraseChunker.Commits hyp now c out c')
    (hsurf : c.tracker.latest_surface = tokenise hyp.text) :
    out.map PhraseChunk.span =
        walk c.audio_cursor ((cutsFrom hyp c.tracker.committed out).map Cut.stop) ∧
      c'.audio_cursor =
        ((cutsFrom hyp c.tracker.committed out).map Cut.stop).getLastD c.audio_cursor ∧
      ∀ k ∈ cutsFrom hyp c.tracker.committed out,
        k.hyp = hyp ∧ 0 < k.words ∧ k.count ≤ k.words := by
  induction hc with
  | nil c => exact ⟨rfl, rfl, by simp [cutsFrom]⟩
  | @cons c c' stable take reason out hs ht rest ih =>
    obtain ⟨hne, rfl⟩ := StabilityTracker.stablePrefix_eq_some.mp hs
    have hlen := StabilityTracker.outstanding_length c.tracker
    have hpos := List.length_pos_iff.mpr hne
    rw [hsurf] at hlen
    simp only at ht
    have hcount : 0 < (tokenise hyp.text).length ∧
        c.tracker.committed + take ≤ (tokenise hyp.text).length := by omega
    obtain ⟨h1, h2, h3⟩ := ih hsurf
    refine ⟨?_, ?_, ?_⟩
    · rw [List.map_cons, h1]
      rfl
    · rw [h2, cutsFrom, List.map_cons, List.getLastD_cons]
      rfl
    · intro k hk
      rcases List.mem_cons.mp hk with rfl | hk
      · exact ⟨rfl, hcount⟩
      · exact h3 k hk

section

variable [Unicode]

/-- A call has the cuts of the chunks that it commits from the newest
hypothesis, or it emits nothing. -/
theorem step_cuts {config : ChunkerConfig} {h : 1 ≤ config.agreement_n} {ls : List Call}
    {s t : Talk} {a : Call} (hr : (talks config h).run ls = some s)
    (hs : (talks config h).step s a = some t) :
    (t.emitted = s.emitted ∧ t.chunker.audio_cursor = s.chunker.audio_cursor ∧
      cutsOf s a t = []) ∨
    ∃ hyp now c out, lastFed (ls ++ [a]) = some hyp ∧
      PhraseChunker.Commits hyp now c out t.chunker ∧
      c.tracker.latest_surface = tokenise hyp.text ∧ c.audio_cursor = s.chunker.audio_cursor ∧
      t.emitted = s.emitted ++ out ∧ cutsOf s a t = cutsFrom hyp c.tracker.committed out := by
  obtain ⟨hm, out, hem, hcalls⟩ := step_commits hr hs
  rcases hcalls with ⟨rfl, hc⟩ | ⟨hyp, now, hl, hc⟩
  · rw [List.append_nil] at hem
    refine Or.inl ⟨hem, by rw [hc, PhraseChunker.told_audio_cursor], ?_⟩
    rw [cutsOf, hem, List.drop_length]
    split <;> rfl
  · have hlast : t.chunker.last_hyp = some hyp := by
      rw [hc.frame.2.1, ← hl]
      exact hm.last_hyp
    refine Or.inr ⟨hyp, now, s.chunker.told a, out, hl, hc, ?_,
      PhraseChunker.told_audio_cursor _ _, hem, ?_⟩
    · have hsurface := hm.surface
      rw [hl] at hsurface
      exact hsurface
    · rw [cutsOf, hlast, hem, List.drop_left, PhraseChunker.told_committed]

/-- The spans of the chunks walk from 0 through the ends of the cuts. -/
structure Walked (hyps : List Hypothesis) (cuts : List Cut) (t : Talk) : Prop where
  spans : t.emitted.map PhraseChunk.span = walk 0 (cuts.map Cut.stop)
  cursor : t.chunker.audio_cursor = (cuts.map Cut.stop).getLastD 0
  heard : ∀ k ∈ cuts, k.hyp ∈ hyps ∧ 0 < k.words ∧ k.count ≤ k.words

theorem talks_walk {config : ChunkerConfig} {h : 1 ≤ config.agreement_n} {ls : List Call}
    {t : Talk} (hr : (talks config h).run ls = some t) :
    Walked (ls.filterMap Call.fed) ((talks config h).history cutsOf ls) t := by
  refine (talks config h).run_induction
    (P := fun ls t => Walked (ls.filterMap Call.fed) ((talks config h).history cutsOf ls) t) ?_ ?_ hr
  · exact ⟨rfl, rfl, by simp⟩
  intro ls s a t hs ih ha
  obtain ⟨h1, h2, h3⟩ := ih
  have hheard : ∀ k ∈ (talks config h).history cutsOf ls,
      k.hyp ∈ (ls ++ [a]).filterMap Call.fed ∧ 0 < k.words ∧ k.count ≤ k.words := by
    intro k hk
    rw [List.filterMap_append]
    exact ⟨List.mem_append_left _ (h3 k hk).1, (h3 k hk).2⟩
  rw [(talks config h).history_snoc cutsOf hs ha]
  rcases step_cuts hs ha with
    ⟨hem, hcur, hcut⟩ | ⟨hyp, now, c, out, hl, hc, hsurf, hcur, hem, hcut⟩
  · rw [hcut, List.append_nil]
    exact ⟨hem ▸ h1, hcur ▸ h2, hheard⟩
  · obtain ⟨g1, g2, g3⟩ := commits_walk hc hsurf
    rw [hcut]
    rw [hcur, h2] at g1 g2
    refine ⟨?_, ?_, ?_⟩
    · rw [hem, List.map_append, List.map_append, walk_append, h1, g1]
    · rw [List.map_append, getLastD_append]
      exact g2
    · intro k hk
      rcases List.mem_append.mp hk with hk | hk
      · exact hheard k hk
      · obtain ⟨hk1, hk2⟩ := g3 k hk
        exact ⟨hk1 ▸ List.mem_of_getLast? hl, hk2⟩

end

end lad_translate.phrase_chunker
