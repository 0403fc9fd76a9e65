-- The word stamps of a whole history of the streaming adapter. A word carries
-- the end of the step at which it appeared as it stands, with all the words
-- before it, and that step is read off the texts of the history alone.
import LadTranslate.Chunker
import LadTranslate.Fallible
import LadTranslate.FastConformer

open prefixes fallible lad_translate.audio

namespace lad_translate.stt_fastconformer

open phrase_chunker

/-! ## The step at which a word appeared -/

/-- The end of the step at which the first `i` words of a hypothesis appeared
as they stand. The hypotheses before it are given the newest first. -/
def stoodSince (hyp : Hypothesis) (i : Nat) : List Hypothesis → ℚ
  | [] => hyp.t_audio_end
  | prev :: older =>
    if (tokenise hyp.text).take i <+: tokenise prev.text then stoodSince prev i older
    else hyp.t_audio_end

/-- Where the words truly ended, each as a word of a hypothesis. A word that
appeared, with all the words before it as they stand, at a step that ends at
some position has ended by then. -/
def Consistent (trueEnd : Hypothesis → Nat → ℚ) (hyps : List Hypothesis) : Prop :=
  ∀ before hyp after, hyps = before ++ hyp :: after → ∀ i, 0 < i → i ≤ (tokenise hyp.text).length →
    trueEnd hyp i ≤ stoodSince hyp i before.reverse

/-- The hypotheses that a clock stamped, one after another. -/
inductive Stamped (c : WordClock) : List Hypothesis → WordClock → Prop
  | nil : Stamped c [] c
  | snoc {hyps : List Hypothesis} {d : WordClock} {hyp : Hypothesis} (h : Stamped c hyps d)
      (hwords : hyp.words = some (d.stamp hyp.text hyp.t_audio_end).2) :
      Stamped c (hyps ++ [hyp]) (d.stamp hyp.text hyp.t_audio_end).1

section

variable {c d : WordClock} {hyps xs ys : List Hypothesis} {hyp : Hypothesis}

theorem stamped_nil_iff : Stamped c [] d ↔ d = c := by
  constructor
  · intro h
    generalize hall : ([] : List Hypothesis) = all at h
    cases h with
    | nil => rfl
    | snoc h hwords => simp at hall
  · rintro rfl
    exact .nil

theorem stamped_snoc_iff : Stamped c (hyps ++ [hyp]) d ↔ ∃ e, Stamped c hyps e ∧
    hyp.words = some (e.stamp hyp.text hyp.t_audio_end).2 ∧
    d = (e.stamp hyp.text hyp.t_audio_end).1 := by
  constructor
  · intro h
    generalize hall : hyps ++ [hyp] = all at h
    cases h with
    | nil => simp at hall
    | @snoc before e last h hwords =>
      obtain ⟨rfl, hlast⟩ := List.append_inj' hall rfl
      obtain rfl := (List.cons.inj hlast).1
      exact ⟨e, h, hwords, rfl⟩
  · rintro ⟨e, h, hwords, rfl⟩
    exact h.snoc hwords

theorem Stamped.of_append (h : Stamped c (xs ++ ys) d) : ∃ e, Stamped c xs e := by
  induction ys using List.reverseRecOn generalizing d with
  | nil => exact ⟨d, by simpa using h⟩
  | append_singleton ys y ih =>
    rw [← List.append_assoc] at h
    obtain ⟨e, he, -⟩ := stamped_snoc_iff.mp h
    exact ih he

end

/-! ## The clock -/

namespace WordClock

theorem sharedWords_eq (old new : List String) : sharedWords old new = (common old new).length := by
  fun_induction sharedWords old new with
  | case1 a as b bs hne =>
    rw [common, if_neg hne]
    rfl
  | case2 a as b bs heq ih =>
    rw [not_not] at heq
    rw [common, if_pos heq, ih, List.length_cons]
  | case3 old new hnone =>
    unfold common
    split
    · exact (hnone _ _ _ _ rfl rfl).elim
    · rfl

/-- The first words of a transcript stand in the old one exactly when they are
shared. -/
theorem take_prefix_iff (old : List String) {new : List String} {i : Nat} (hi : i ≤ new.length) :
    new.take i <+: old ↔ i ≤ sharedWords old new := by
  have hnew : common old new <+: new := (prefix_common_iff.mp (List.prefix_refl _)).2
  have hlength : (new.take i).length = i := by
    rw [List.length_take]
    omega
  rw [sharedWords_eq]
  constructor
  · intro h
    have hcommon := prefix_common_iff.mpr ⟨h, List.take_prefix i new⟩
    have hle := hcommon.length_le
    rwa [hlength] at hle
  · intro h
    have hcommon : new.take i <+: common old new :=
      List.prefix_of_prefix_length_le (List.take_prefix i new) hnew (by rwa [hlength])
    exact (prefix_common_iff.mp hcommon).1

theorem take_sharedWords (old new : List String) :
    old.take (sharedWords old new) = new.take (sharedWords old new) := by
  obtain ⟨hold, hnew⟩ := prefix_common_iff.mp (List.prefix_refl (common old new))
  rw [sharedWords_eq, ← List.prefix_iff_eq_take.mp hold, ← List.prefix_iff_eq_take.mp hnew]

theorem sharedWords_le (old new : List String) : sharedWords old new ≤ new.length := by
  rw [sharedWords_eq]
  exact (prefix_common_iff.mp (List.prefix_refl _)).2.length_le

/-- A stamp replaces the words by those of the transcript. -/
theorem stamp_words (c : WordClock) (text : String) (audio_end : ℚ) :
    (c.stamp text audio_end).1.words = tokenise text := by
  have hsame := take_sharedWords c.words (tokenise text)
  simp only [stamp]
  rw [hsame, List.take_append_drop]

theorem timings_ends (previous : ℚ) (l : List (String × ℚ)) :
    (timings previous l).map (·.t_audio_end) = l.map Prod.snd := by
  induction l generalizing previous with
  | nil => rfl
  | cons x l ih =>
    rw [timings, List.map_cons, List.map_cons, ih]

theorem timings_words (previous : ℚ) (l : List (String × ℚ)) :
    (timings previous l).map (·.word) = l.map Prod.fst := by
  induction l generalizing previous with
  | nil => rfl
  | cons x l ih => rw [timings, List.map_cons, List.map_cons, ih]

/-- The stamps that words standing since some steps have. -/
def stampsOf (hyp : Hypothesis) (older : List Hypothesis) : List ℚ :=
  (List.range (tokenise hyp.text).length).map fun i => stoodSince hyp (i + 1) older

/-- The clock after a history that ends with a hypothesis. -/
def After (c : WordClock) (hyp : Hypothesis) (older : List Hypothesis) : Prop :=
  c.words = tokenise hyp.text ∧ c.ends = stampsOf hyp older

/-- A stamp on a clock with no words dates every word to its step. -/
theorem after_first (hyp : Hypothesis) : (fresh.stamp hyp.text hyp.t_audio_end).1.After hyp [] := by
  refine ⟨stamp_words _ _ _, ?_⟩
  simp [stamp, fresh, sharedWords, stampsOf, stoodSince]

/-- A stamp keeps the dates of the shared words, and dates the rest to its
step. -/
theorem After.stamp {c : WordClock} {prev : Hypothesis} {older : List Hypothesis}
    (h : c.After prev older) (hyp : Hypothesis) :
    (c.stamp hyp.text hyp.t_audio_end).1.After hyp (prev :: older) := by
  obtain ⟨hwords, hends⟩ := h
  refine ⟨stamp_words _ _ _, ?_⟩
  have hle := sharedWords_le c.words (tokenise hyp.text)
  have hold : sharedWords c.words (tokenise hyp.text) ≤ (tokenise prev.text).length := by
    rw [← hwords, sharedWords_eq]
    exact (prefix_common_iff.mp (List.prefix_refl _)).1.length_le
  have hlength : (WordClock.stampsOf prev older).length = (tokenise prev.text).length := by
    rw [stampsOf, List.length_map, List.length_range]
  simp only [WordClock.stamp, hends]
  apply List.ext_getElem
  · rw [List.length_append, List.length_take, List.length_map, List.length_drop, hlength, stampsOf,
      List.length_map, List.length_range]
    omega
  · intro i hi hi'
    have hin : i < (tokenise hyp.text).length := by
      rwa [stampsOf, List.length_map, List.length_range] at hi'
    have hstands := take_prefix_iff c.words (Nat.succ_le_of_lt hin)
    rw [hwords] at hstands hle hold
    simp only [stampsOf, List.getElem_map, List.getElem_range, stoodSince, hwords]
    rw [List.getElem_append]
    by_cases hshared : i < sharedWords (tokenise prev.text) (tokenise hyp.text)
    · rw [if_pos (hstands.mpr hshared), dif_pos]
      · rw [List.getElem_take, List.getElem_map, List.getElem_range]
      · rw [List.length_take, List.length_map, List.length_range]
        omega
    · rw [if_neg (fun hstood => hshared (hstands.mp hstood)), dif_neg]
      · rw [List.getElem_map]
      · rw [List.length_take, List.length_map, List.length_range]
        omega

/-- What a stamp returns: the words of the transcript, and since when each of
them stands. -/
theorem After.timings {c : WordClock} {hyp : Hypothesis} {older : List Hypothesis}
    (h : c.After hyp older) (previous : ℚ) :
    (timings previous (c.words.zip c.ends)).map (·.word) = tokenise hyp.text ∧
      (timings previous (c.words.zip c.ends)).map (·.t_audio_end) = stampsOf hyp older := by
  obtain ⟨hwords, hends⟩ := h
  have hlength : (stampsOf hyp older).length = (tokenise hyp.text).length := by
    rw [stampsOf, List.length_map, List.length_range]
  rw [timings_words, timings_ends, hwords, hends]
  exact ⟨List.map_fst_zip hlength.ge, List.map_snd_zip hlength.le⟩

end WordClock

/-- After a history that ends with a hypothesis, every word of it carries the
step since which it stands. -/
theorem Stamped.after {hyps : List Hypothesis} {hyp : Hypothesis} {d : WordClock}
    (h : Stamped .fresh (hyps ++ [hyp]) d) : d.After hyp hyps.reverse := by
  induction hyps using List.reverseRecOn generalizing hyp d with
  | nil =>
    obtain ⟨e, he, -, rfl⟩ := stamped_snoc_iff.mp h
    rw [stamped_nil_iff.mp he]
    exact WordClock.after_first hyp
  | append_singleton older prev ih =>
    obtain ⟨e, he, -, rfl⟩ := stamped_snoc_iff.mp h
    rw [List.reverse_append]
    exact (ih he).stamp hyp

/-- The words of a stamped hypothesis are those of its text, each with the step
since which it stands. -/
theorem Stamped.words {before : List Hypothesis} {hyp : Hypothesis} {d : WordClock}
    (h : Stamped .fresh (before ++ [hyp]) d) : ∃ words, hyp.words = some words ∧
      words.map (·.word) = tokenise hyp.text ∧
      words.map (·.t_audio_end) = WordClock.stampsOf hyp before.reverse := by
  have hafter := h.after
  obtain ⟨e, -, hwords, rfl⟩ := stamped_snoc_iff.mp h
  exact ⟨_, hwords, hafter.timings 0⟩

/-- The chunker reads the end of a word in the words of its hypothesis. -/
theorem wordEndTime_words {hyp : Hypothesis} {words : List WordTiming} {i : Nat}
    (hwords : hyp.words = some words) (hi : i < words.length) :
    PhraseChunker.wordEndTime hyp (i + 1) = words[i].t_audio_end := by
  have hne : words ≠ [] := by
    rintro rfl
    exact absurd hi (Nat.not_lt_zero i)
  unfold PhraseChunker.wordEndTime
  simp only [hwords, Option.getD_some]
  rw [if_pos ⟨hne, hi⟩, List.getElem?_eq_getElem hi]
  rfl

/-- The chunker reads the end of a word as the step since which it stands. -/
theorem wordEndTime_stamped {hyps before after : List Hypothesis} {hyp : Hypothesis} {d : WordClock}
    (h : Stamped .fresh hyps d) (hat : hyps = before ++ hyp :: after) {i : Nat} (hpos : 0 < i)
    (hi : i ≤ (tokenise hyp.text).length) :
    PhraseChunker.wordEndTime hyp i = stoodSince hyp i before.reverse := by
  rw [hat, List.append_cons] at h
  obtain ⟨e, he⟩ := h.of_append
  obtain ⟨words, hwords, htexts, hends⟩ := he.words
  obtain ⟨k, rfl⟩ : ∃ k, i = k + 1 := ⟨i - 1, by omega⟩
  have hk : k < words.length := by
    rw [← htexts, List.length_map] at hi
    omega
  have hend := congrArg (fun l => l[k]?) hends
  simp only [List.getElem?_map, List.getElem?_eq_getElem hk, Option.map_some,
    WordClock.stampsOf, List.getElem?_range (Nat.lt_of_succ_le hi), Option.some.injEq] at hend
  rw [wordEndTime_words hwords hk, hend]

/-! ## The histories of the adapter -/

section

variable {φ σ : Type} (m : SpeechModel φ σ) (geometry : StreamingGeometry) (language : String)
  (now : Nat → ℚ) {c : WordClock}

/-- The hypotheses that were yielded so far are stamped by the clock. -/
def Hearing.Stamped (c : WordClock) (h : Hearing φ σ) : Prop :=
  stt_fastconformer.Stamped c h.yielded h.clock

namespace Hearing

variable {h : Hearing φ σ}

theorem stamped_runStep (hs : h.Stamped c) (chunk : List φ) (plan : ChunkPlan)
    (keep_all_outputs : Bool) : (h.runStep m chunk plan keep_all_outputs).Stamped c := hs

theorem stamped_hypothesis (hs : h.Stamped c) (plan : ChunkPlan) (is_final : Bool) :
    (h.hypothesis geometry language now plan is_final).Stamped c :=
  stt_fastconformer.Stamped.snoc hs rfl

theorem stamped_emitInterim (hs : h.Stamped c) (plan : ChunkPlan) :
    (h.emitInterim geometry language now plan).Stamped c := by
  unfold emitInterim
  split
  · apply stamped_hypothesis
    exact hs
  · exact hs

theorem stamped_emitFinal (hs : h.Stamped c) : (h.emitFinal geometry language now).Stamped c := by
  unfold emitFinal
  split
  · split
    · exact stamped_hypothesis geometry language now hs _ true
    · exact hs
  · exact hs

end Hearing

theorem stamped_onFrame {n : Nat} {t t' : Transcriber φ σ} {frame : AudioFrame}
    (hs : t.hearing.Stamped c) (hframe : onFrame m geometry language now n t frame = .ok t') :
    t'.hearing.Stamped c := by
  obtain ⟨samples, pending, buffer, schedule, plans, hearing, -, -, -, hrun, rfl⟩ :=
    onFrame_eq_ok.mp hframe
  refine runPlans_induction (P := fun h => h.Stamped c) ?_ hs hrun
  intro plan _ chunk h hs
  apply Hearing.stamped_emitInterim
  exact Hearing.stamped_runStep m hs chunk plan false

theorem stamped_atEnd {t : Transcriber φ σ} {h : Hearing φ σ} (hs : t.hearing.Stamped c)
    (hend : atEnd m geometry language now t = .ok h) : h.Stamped c := by
  unfold atEnd at hend
  simp only at hend
  split at hend
  · cases hend
    exact Hearing.stamped_emitFinal geometry language now hs
  · obtain ⟨chunk, -, hend⟩ := bind_eq_ok.mp hend
    cases hend
    exact Hearing.stamped_emitFinal geometry language now hs

/-- Whatever the adapter yields, over one call after another, is stamped by its
clock. -/
theorem transcribe_stamped {a : FastConformerSttAdapter} {frames : List AudioFrame}
    {h : Hearing φ σ} (ht : transcribe m now a frames = .ok h) :
    Stamped a.clock h.yielded h.clock := by
  unfold transcribe at ht
  split at ht
  · cases ht
  · obtain ⟨t, hframes, hend⟩ := bind_eq_ok.mp ht
    refine stamped_atEnd m _ _ now ?_ hend
    refine foldlM_induction (P := fun _ t => t.hearing.Stamped a.clock) ?_ .nil hframes
    exact fun _ t frame t' hs hframe => stamped_onFrame m _ _ now hs hframe

end

end lad_translate.stt_fastconformer
