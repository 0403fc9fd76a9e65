-- The laws of the audio spans of chunks without word timings. A chunk starts
-- where the one before it ended, and it ends at its share of the hypothesis
-- it was cut from, so the spans are in order as long as the hypotheses do not
-- get words faster than the chunker commits them.
import LadTranslate.Cuts

namespace lad_translate.phrase_chunker

namespace Cut

/-- The seconds of the hypothesis. -/
def seconds (k : Cut) : ℚ := k.hyp.t_audio_end - k.hyp.t_audio_start

/-- The share of the hypothesis before the cut, as a position in the audio. -/
def position (k : Cut) : ℚ := k.hyp.t_audio_start + k.seconds * (k.count / k.words)

/-- From one cut to the next, the words per second of the hypothesis grow by
no more than the committed words do. -/
def KeepsPace (x y : Cut) : Prop :=
  (y.words : ℚ) * x.seconds * x.count ≤ x.words * y.seconds * y.count

end Cut

/-- Every hypothesis comes without word timings, and all of them start at one
position and end in order. -/
structure Untimed (hyps : List Hypothesis) : Prop where
  no_words : ∀ hyp ∈ hyps, hyp.words.getD [] = []
  one_start : ∃ s, 0 ≤ s ∧ ∀ hyp ∈ hyps, hyp.t_audio_start = s
  spans : ∀ hyp ∈ hyps, hyp.t_audio_start ≤ hyp.t_audio_end
  in_order : hyps.Pairwise fun x y => x.t_audio_end ≤ y.t_audio_end

/-- Without word timings, a word ends at its share of the hypothesis. -/
theorem wordEndTime_untimed {hyp : Hypothesis} {i : Nat} (hw : hyp.words.getD [] = [])
    (hspan : hyp.t_audio_start ≤ hyp.t_audio_end) (hpos : 0 < (tokenise hyp.text).length)
    (hi : i ≤ (tokenise hyp.text).length) :
    PhraseChunker.wordEndTime hyp i = (Cut.mk hyp i).position := by
  have hq : (0 : ℚ) < (tokenise hyp.text).length := by exact_mod_cast hpos
  have hfraction : (i : ℚ) / (tokenise hyp.text).length ≤ 1 := by
    rw [div_le_one hq]
    exact_mod_cast hi
  unfold PhraseChunker.wordEndTime Cut.position Cut.seconds Cut.words
  simp only [hw, ne_eq, not_true_eq_false, false_and, if_false]
  by_cases h0 : hyp.t_audio_end - hyp.t_audio_start ≤ 0
  · rw [if_pos (Or.inr h0)]
    have heq : hyp.t_audio_end = hyp.t_audio_start := by linarith
    rw [heq, sub_self, zero_mul, add_zero]
  · rw [if_neg (not_or.mpr ⟨by omega, h0⟩), min_eq_right hfraction]

/-- Two positions are in order exactly when the later cut keeps pace. -/
theorem position_le_iff {x y : Cut} (hx : 0 < x.words) (hy : 0 < y.words)
    (hstart : x.hyp.t_audio_start = y.hyp.t_audio_start) :
    x.position ≤ y.position ↔ x.KeepsPace y := by
  have hxq : (0 : ℚ) < x.words := by exact_mod_cast hx
  have hyq : (0 : ℚ) < y.words := by exact_mod_cast hy
  unfold Cut.position Cut.KeepsPace
  rw [hstart, add_le_add_iff_left, ← mul_div_assoc, ← mul_div_assoc, div_le_div_iff₀ hxq hyq]
  constructor
  · intro hle
    linarith
  · intro hle
    linarith

/-- Positions at or after 0 are in order exactly when each cut keeps pace with
the one before it. -/
theorem walk_ordered_iff_pace {cuts : List Cut} {s : ℚ} (h0 : 0 ≤ s)
    (hcuts : ∀ k ∈ cuts, k.hyp.t_audio_start = s ∧ 0 ≤ k.seconds ∧ 0 < k.words) :
    (∀ x ∈ walk 0 (cuts.map Cut.position), x.1 ≤ x.2) ↔ cuts.IsChain Cut.KeepsPace := by
  rw [walk_ordered_iff]
  cases cuts with
  | nil => simp
  | cons k ks =>
    obtain ⟨hs, hsec, hpos⟩ := hcuts k List.mem_cons_self
    have hfirst : 0 ≤ k.position := by
      unfold Cut.position
      rw [hs]
      positivity
    rw [List.map_cons, List.isChain_cons_cons, ← List.map_cons, List.isChain_map]
    refine (and_iff_right hfirst).trans (List.IsChain.iff_of_mem_imp ?_)
    intro x y hx hy
    exact position_le_iff (hcuts x hx).2.2 (hcuts y hy).2.2
      ((hcuts x hx).1.trans (hcuts y hy).1.symm)

section

variable [Unicode]

/-- In a history of untimed hypotheses, every chunk ends where it starts or
later exactly when each chunk is cut from a hypothesis whose words per second
grew by no more than the committed words did since the chunk before. -/
theorem chunk_spans_are_ordered_iff (config : ChunkerConfig) (h : 1 ≤ config.agreement_n)
    (ls : List Call) (hu : Untimed (ls.filterMap Call.fed)) (t : Talk)
    (hr : (talks config h).run ls = some t) :
    (∀ c ∈ t.emitted, c.t_audio_start ≤ c.t_audio_end) ↔
      ((talks config h).history cutsOf ls).IsChain Cut.KeepsPace := by
  have hw := talks_walk hr
  have hstops : ((talks config h).history cutsOf ls).map Cut.stop =
      ((talks config h).history cutsOf ls).map Cut.position := by
    apply List.map_congr_left
    intro k hk
    obtain ⟨hmem, hpos, hcount⟩ := hw.heard k hk
    exact wordEndTime_untimed (hu.no_words _ hmem) (hu.spans _ hmem) hpos hcount
  obtain ⟨s, h0, hs⟩ := hu.one_start
  rw [← walk_ordered_iff_pace h0, ← hstops, ← hw.spans, List.forall_mem_map]
  · rfl
  · intro k hk
    obtain ⟨hmem, hpos, -⟩ := hw.heard k hk
    exact ⟨hs _ hmem, sub_nonneg.mpr (hu.spans _ hmem), hpos⟩

end

/-! ## Two talks without word timings -/

open ascii

/-- A steady talk: three words in each second. -/
def steadyTalk : List Call :=
  [.feed (.spoken "good morning everyone" true 1),
    .feed (.spoken "good morning everyone we start now" true 2)]

/-- A talk that starts slowly and then gets many words at once. -/
def burstTalk : List Call :=
  [.feed (.spoken "we are going to Dubai." true 10),
    .feed (.spoken "we are going to Dubai. it is very nice, there are many tall towers and much sand"
      false 11),
    .feed (.spoken "we are going to Dubai. it is very nice, there are many tall towers and much sand"
      false 12)]

theorem steadyTalk_untimed : Untimed (steadyTalk.filterMap Call.fed) :=
  ⟨by decide +kernel, ⟨0, by decide +kernel, by decide +kernel⟩, by decide +kernel, by decide +kernel⟩

theorem burstTalk_untimed : Untimed (burstTalk.filterMap Call.fed) :=
  ⟨by decide +kernel, ⟨0, by decide +kernel, by decide +kernel⟩, by decide +kernel, by decide +kernel⟩

/-- The chunks of the steady talk are in order. -/
theorem chunk_spans_are_ordered_in_a_steady_talk :
    ∃ t, (talks {} (by decide)).run steadyTalk = some t ∧
      ((∀ c ∈ t.emitted, c.t_audio_start ≤ c.t_audio_end) ↔
        ((talks {} (by decide)).history cutsOf steadyTalk).IsChain Cut.KeepsPace) := by
  obtain ⟨t, hr⟩ := talks_total {} (by decide) (by decide) steadyTalk
  exact ⟨t, hr, chunk_spans_are_ordered_iff {} (by decide) steadyTalk steadyTalk_untimed t hr⟩

/-- The second chunk of the other talk starts at second 10, where the first one
ended, and it ends before: after nine words of seventeen, in twelve seconds. -/
theorem a_chunk_span_runs_backwards :
    Untimed (burstTalk.filterMap Call.fed) ∧
    ∃ t, (talks {} (by decide)).run burstTalk = some t ∧
      ¬ ∀ c ∈ t.emitted, c.t_audio_start ≤ c.t_audio_end := by
  obtain ⟨t, hr⟩ := talks_total {} (by decide) (by decide) burstTalk
  have hspans : ((talks {} (by decide)).run burstTalk).map (·.emitted.map PhraseChunk.span) =
      some [(0, 10), (10, 108 / 17)] := by decide +kernel
  rw [hr, Option.map_some, Option.some.injEq] at hspans
  refine ⟨burstTalk_untimed, t, hr, ?_⟩
  intro hall
  have hmem : ((10 : ℚ), (108 / 17 : ℚ)) ∈ t.emitted.map PhraseChunk.span := by
    rw [hspans]
    exact List.mem_cons_of_mem _ List.mem_cons_self
  obtain ⟨c, hc, hspan⟩ := List.mem_map.mp hmem
  obtain ⟨hstart, hend⟩ := Prod.mk.inj hspan
  have hle := hall c hc
  rw [hstart, hend] at hle
  norm_num at hle

end lad_translate.phrase_chunker
