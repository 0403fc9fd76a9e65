-- The transcript of the sliding window adapter is cumulative: a hypothesis is
-- the text of the utterances that were closed before it, and of its own window.
import LadTranslate.EnergyGate

open fallible lad_translate.audio lad_translate.phrase_chunker

namespace lad_translate.stt_whisper

/-! ## Locked text -/

/-- The tokens that are locked after some passes: those that the adapter began
with, and those of every final. -/
def lockedTokens (a : WhisperSttAdapter) (passes : List Pass) : List String :=
  tokenise a.locked_text ++
    (passes.filter fun pass => pass.hypothesis.is_final).flatMap fun pass => tokenise pass.text

/-- Each hypothesis says what was locked before it and what its own pass found,
and it is numbered. -/
inductive Cumulative (a : WhisperSttAdapter) : List Pass → Prop
  | nil : Cumulative a []
  | snoc {passes : List Pass} {pass : Pass} : Cumulative a passes →
      tokenise pass.hypothesis.text = lockedTokens a passes ++ tokenise pass.text →
      pass.hypothesis.seq = a.seq + passes.length + 1 → Cumulative a (passes ++ [pass])

section

variable {a : WhisperSttAdapter} {passes : List Pass} {pass : Pass}

theorem lockedTokens_snoc (a : WhisperSttAdapter) (passes : List Pass) (pass : Pass) :
    lockedTokens a (passes ++ [pass]) =
      lockedTokens a passes ++ if pass.hypothesis.is_final then tokenise pass.text else [] := by
  unfold lockedTokens
  rw [List.filter_append, List.flatMap_append, List.append_assoc]
  congr 2
  by_cases hfinal : pass.hypothesis.is_final = true
  · simp [hfinal]
  · simp [hfinal]

theorem lockedTokens_prefix_snoc (a : WhisperSttAdapter) (passes : List Pass) (pass : Pass) :
    lockedTokens a passes <+: lockedTokens a (passes ++ [pass]) := by
  rw [lockedTokens_snoc]
  exact List.prefix_append _ _

/-- What a final said stays locked. -/
theorem Cumulative.final_locked (h : Cumulative a passes) (hpass : pass ∈ passes)
    (hfinal : pass.hypothesis.is_final = true) :
    tokenise pass.hypothesis.text <+: lockedTokens a passes := by
  induction h with
  | nil => cases hpass
  | @snoc before last _ htext _ ih =>
    rcases List.mem_append.mp hpass with hpass | hpass
    · exact (ih hpass).trans (lockedTokens_prefix_snoc a before last)
    · obtain rfl := List.mem_singleton.mp hpass
      rw [lockedTokens_snoc, if_pos hfinal, htext]

theorem Cumulative.seq_le (h : Cumulative a passes) (hpass : pass ∈ passes) :
    pass.hypothesis.seq ≤ a.seq + passes.length := by
  induction h with
  | nil => cases hpass
  | @snoc before last _ _ hseq ih =>
    rw [List.length_append, List.length_singleton]
    rcases List.mem_append.mp hpass with hpass | hpass
    · have hle := ih hpass
      omega
    · obtain rfl := List.mem_singleton.mp hpass
      omega

/-- A final is never revised, and the numbers grow. -/
theorem Cumulative.pairwise (h : Cumulative a passes) : passes.Pairwise fun p q =>
    (p.hypothesis.is_final = true →
      tokenise p.hypothesis.text <+: tokenise q.hypothesis.text) ∧
    p.hypothesis.seq < q.hypothesis.seq := by
  induction h with
  | nil => exact .nil
  | @snoc before last hbefore htext hseq ih =>
    rw [List.pairwise_append]
    refine ⟨ih, List.pairwise_singleton _ _, ?_⟩
    intro p hp q hq
    obtain rfl := List.mem_singleton.mp hq
    constructor
    · intro hfinal
      rw [htext]
      exact (hbefore.final_locked hp hfinal).trans (List.prefix_append _ _)
    · have hle := hbefore.seq_le hp
      omega

theorem Cumulative.at (h : Cumulative a passes) {before after : List Pass}
    (hpasses : passes = before ++ pass :: after) :
    tokenise pass.hypothesis.text = lockedTokens a before ++ tokenise pass.text := by
  induction h generalizing after with
  | nil => exact absurd hpasses (by simp)
  | @snoc earlier last _ htext _ ih =>
    rcases List.eq_nil_or_concat after with rfl | ⟨between, final, rfl⟩
    · obtain ⟨rfl, hlast⟩ := List.append_inj' hpasses rfl
      obtain rfl := List.singleton_inj.mp hlast
      exact htext
    · rw [List.concat_eq_append, ← List.cons_append, ← List.append_assoc] at hpasses
      exact ih (List.append_inj' hpasses rfl).1

end

/-! ## The run -/

section

variable [CaseTable] {m : WhisperModel} {now : Nat → ℚ} {a : WhisperSttAdapter}
  {frames : List AudioFrame} {w : Listening}

/-- The adapter has locked the tokens of its finals, and its passes are
cumulative. -/
structure Transcript (a : WhisperSttAdapter) (w : Listening) : Prop where
  locked : tokenise w.adapter.locked_text = lockedTokens a w.passes
  counted : w.adapter.seq = a.seq + w.passes.length
  cumulative : Cumulative a w.passes

omit [CaseTable] in
/-- One more hypothesis keeps the transcript cumulative. -/
theorem Transcript.yields (h : Transcript a w) (now : Nat → ℚ) (text : String) (is_final : Bool) :
    (w.yields now text is_final).adapter.seq = a.seq + (w.yields now text is_final).passes.length ∧
      Cumulative a (w.yields now text is_final).passes := by
  constructor
  · have hseq : (w.yields now text is_final).adapter.seq = w.adapter.seq + 1 := rfl
    rw [hseq, h.counted, Listening.yields, List.length_append, List.length_singleton]
    rfl
  · refine h.cumulative.snoc ?_ ?_
    · show tokenise (strip _) = _
      rw [tokenise_strip, tokenise_append_space, h.locked]
    · show w.adapter.seq + 1 = _
      rw [h.counted]

theorem transcript_onAudio (h : Transcript a w) (frame : AudioFrame) (audio : List ℚ) :
    Transcript a (onAudio m now w frame audio) := by
  have hr : Transcript a (w.receives frame audio) := by
    unfold Listening.receives
    obtain ⟨quiet_for, heq⟩ := receive_eq w.adapter frame audio
    rw [heq]
    exact ⟨h.locked, h.counted, h.cumulative⟩
  have hheard := onAudio_heard m now w frame audio
  generalize w.receives frame audio = r at hheard hr
  generalize onAudio m now w frame audio = t at hheard ⊢
  cases hheard with
  | waits hearly hloud hshort => exact hr
  | silent hpass hloud => exact ⟨hr.locked, hr.counted, hr.cumulative⟩
  | @interim text asks hpass htext hloud hshort =>
    obtain ⟨hcounted, hcumulative⟩ := hr.yields now text false
    refine ⟨?_, hcounted, hcumulative⟩
    show tokenise r.adapter.locked_text = lockedTokens a (r.passes ++ _)
    rw [lockedTokens_snoc, hr.locked]
    exact (List.append_nil _).symm
  | @final text asks hpass htext hover =>
    obtain ⟨hcounted, hcumulative⟩ := hr.yields now text true
    refine ⟨?_, hcounted, hcumulative⟩
    show tokenise (strip _) = lockedTokens a (r.passes ++ _)
    rw [lockedTokens_snoc, tokenise_strip, tokenise_append_space, hr.locked]
    rfl

theorem transcript_heardBy (hw : heardBy m now a frames = .ok w) : Transcript a w := by
  refine foldlM_induction (P := fun _ w => Transcript a w) ?_ ?_ hw
  · intro _ w frame w' hw hframe
    obtain ⟨audio, -, hframe⟩ := bind_eq_ok.mp hframe
    cases hframe
    exact transcript_onAudio hw frame audio
  · exact ⟨by simp [lockedTokens], rfl, .nil⟩

theorem cumulative_transcribe (ht : transcribe m now a frames = .ok w) :
    Cumulative a w.passes := by
  unfold transcribe at ht
  split at ht
  · cases ht
  · obtain ⟨u, hframes, hend⟩ := bind_eq_ok.mp ht
    cases hend
    have hu : Transcript a u := transcript_heardBy hframes
    unfold atEnd
    split
    · exact hu.cumulative
    · simp only
      split
      · exact hu.cumulative
      · have hu' : Transcript a { u with asks := (u.adapter.transcribeBuffer m u.asks).2 } :=
          ⟨hu.locked, hu.counted, hu.cumulative⟩
        exact (hu'.yields now _ true).2

/-- No pass is forgotten. -/
theorem passes_onAudio (w : Listening) (frame : AudioFrame) (audio : List ℚ) :
    w.passes <+: (onAudio m now w frame audio).passes := by
  have hpasses : (w.receives frame audio).passes = w.passes := rfl
  have hheard := onAudio_heard m now w frame audio
  rw [← hpasses]
  generalize w.receives frame audio = r at hheard
  generalize onAudio m now w frame audio = t at hheard ⊢
  cases hheard with
  | waits hearly hloud hshort => exact List.prefix_refl _
  | silent hpass hloud => exact List.prefix_refl _
  | interim hpass htext hloud hshort => exact List.prefix_append _ _
  | final hpass htext hover => exact List.prefix_append _ _

theorem passes_onFrames {u : Listening} (h : frames.foldlM (onFrame m now) u = .ok w) :
    u.passes <+: w.passes := by
  refine foldlM_induction (P := fun _ w => u.passes <+: w.passes) ?_ (List.prefix_refl _) h
  intro _ w frame w' hw hframe
  obtain ⟨audio, -, hframe⟩ := bind_eq_ok.mp hframe
  cases hframe
  exact hw.trans (passes_onAudio w frame audio)

theorem passes_atEnd (w : Listening) : w.passes <+: (atEnd m now w).passes := by
  unfold atEnd
  split
  · exact List.prefix_refl _
  · simp only
    split
    · exact List.prefix_refl _
    · exact List.prefix_append _ _

/-- What was heard at an earlier frame is a part of what was heard. -/
theorem passes_heardBy {heard : List AudioFrame} {u : Listening} (hheard : heard <+: frames)
    (hu : heardBy m now a heard = .ok u)
    (hw : heardBy m now a frames = .ok w ∨ transcribe m now a frames = .ok w) :
    u.passes <+: w.passes := by
  obtain ⟨rest, rfl⟩ := hheard
  have hlast : ∀ v, heardBy m now a (heard ++ rest) = .ok v → u.passes <+: v.passes := by
    intro v hv
    unfold heardBy at hu hv
    rw [List.foldlM_append, hu] at hv
    exact passes_onFrames hv
  rcases hw with hw | ht
  · exact hlast w hw
  · unfold transcribe at ht
    split at ht
    · cases ht
    · obtain ⟨v, hv, hend⟩ := bind_eq_ok.mp ht
      cases hend
      exact (hlast v hv).trans (passes_atEnd v)

/-- Between two frames, and at its end, a run has said in each hypothesis the
tokens that were locked before it and those of its own pass. What a final said
comes first in all that is said later, and the numbers grow. What is locked
between two frames is what the adapter has locked. -/
theorem the_transcript_is_cumulative (m : WhisperModel) (now : Nat → ℚ) (a : WhisperSttAdapter)
    (frames : List AudioFrame) (w : Listening)
    (hw : heardBy m now a frames = .ok w ∨ transcribe m now a frames = .ok w) :
    (w.passes.Pairwise fun p q => (p.hypothesis.is_final = true →
        tokenise p.hypothesis.text <+: tokenise q.hypothesis.text) ∧
      p.hypothesis.seq < q.hypothesis.seq) ∧
    (∀ before pass after, w.passes = before ++ pass :: after →
      tokenise pass.hypothesis.text = lockedTokens a before ++ tokenise pass.text) ∧
    ∀ heard u, heard <+: frames → heardBy m now a heard = .ok u →
      u.passes <+: w.passes ∧ tokenise u.adapter.locked_text = lockedTokens a u.passes := by
  have hcumulative : Cumulative a w.passes := by
    rcases hw with hw | ht
    · exact (transcript_heardBy hw).cumulative
    · exact cumulative_transcribe ht
  refine ⟨hcumulative.pairwise, ?_, ?_⟩
  · intro before pass after hpasses
    exact hcumulative.at hpasses
  · intro heard u hheard hu
    exact ⟨passes_heardBy hheard hu hw, (transcript_heardBy hu).locked⟩

end

/-- An utterance, the silence that closes it, and another one. -/
def twoUtterances : List AudioFrame := [applause 0, levelled 1 0, applause 2]

open ascii

theorem twoUtterances_transcribed :
    (transcribe (fun _ _ => [⟨"so", 0, 0⟩]) (fun n => n) quickToClose twoUtterances).toOption.map
      (fun w => w.passes.map fun pass => (pass.hypothesis.text, pass.hypothesis.is_final)) =
      some [("so", false), ("so", true), ("so so", true)] := by
  decide +kernel

theorem the_transcript_is_cumulative_over_two_utterances :
    ∃ w, transcribe (fun _ _ => [⟨"so", 0, 0⟩]) (fun n => n) quickToClose twoUtterances = .ok w ∧
      w.passes.length = 3 ∧
      w.passes.Pairwise fun p q => (p.hypothesis.is_final = true →
          tokenise p.hypothesis.text <+: tokenise q.hypothesis.text) ∧
        p.hypothesis.seq < q.hypothesis.seq := by
  obtain ⟨w, hw, hpasses⟩ := Option.map_eq_some_iff.mp twoUtterances_transcribed
  rw [toOption_eq_some] at hw
  have hlength : w.passes.length = 3 := by
    rw [← List.length_map, hpasses]
    rfl
  exact ⟨w, hw, hlength, (the_transcript_is_cumulative _ _ _ _ w (.inr hw)).1⟩

end lad_translate.stt_whisper
