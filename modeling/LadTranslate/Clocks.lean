-- The word clock over any sequence of stamps. The end of a word is the end of
-- the earliest call of the run, up to the newest call, in which the word and
-- all the words before it stood as they stand now.
import LadTranslate.Stamps

namespace lad_translate.stt_fastconformer

open phrase_chunker

/-! ## The calls in a row that share some words -/

/-- A hypothesis, and the ones before it for as long as they start with the same
`i` words, the newest first. -/
def standing (i : Nat) (hyp : Hypothesis) (older : List Hypothesis) : List Hypothesis :=
  (hyp :: older).takeWhile fun x => decide ((tokenise hyp.text).take i <+: tokenise x.text)

theorem standing_eq (i : Nat) (hyp : Hypothesis) (older : List Hypothesis) :
    standing i hyp older =
      hyp :: older.takeWhile fun x => decide ((tokenise hyp.text).take i <+: tokenise x.text) := by
  unfold standing
  rw [List.takeWhile_cons_of_pos]
  simp [List.take_prefix]

/-- A word has stood since the earliest of the hypotheses in a row that share
it. -/
theorem stoodSince_eq {hyp : Hypothesis} {i : Nat} (hi : i ≤ (tokenise hyp.text).length)
    (older : List Hypothesis) : ∃ first, (standing i hyp older).getLast? = some first ∧
      stoodSince hyp i older = first.t_audio_end := by
  induction older generalizing hyp with
  | nil => exact ⟨hyp, by simp [standing_eq], rfl⟩
  | cons prev older ih =>
    unfold stoodSince
    rw [standing_eq]
    by_cases hstood : (tokenise hyp.text).take i <+: tokenise prev.text
    · have hlength : ((tokenise hyp.text).take i).length = i := by
        rw [List.length_take]
        omega
      have hle := hstood.length_le
      rw [hlength] at hle
      -- the one before starts with the same words
      have hsame := List.prefix_iff_eq_take.mp hstood
      rw [hlength] at hsame
      obtain ⟨first, hfirst, hstop⟩ := ih hle
      refine ⟨first, ?_, by rw [if_pos hstood, hstop]⟩
      rw [standing, ← hsame] at hfirst
      rw [List.getLast?_cons, hfirst]
      rfl
    · refine ⟨hyp, ?_, by rw [if_neg hstood]⟩
      rw [List.takeWhile_cons_of_neg (by simpa using hstood)]
      rfl

/-! ## The order of the stamps -/

section

variable {hyp : Hypothesis} {older : List Hypothesis}
  (horder : (hyp :: older).Pairwise fun x y => y.t_audio_end ≤ x.t_audio_end)

include horder

theorem stoodSince_le (i : Nat) : stoodSince hyp i older ≤ hyp.t_audio_end := by
  induction older generalizing hyp with
  | nil => exact le_rfl
  | cons prev older ih =>
    unfold stoodSince
    split
    · have hprev := List.rel_of_pairwise_cons horder List.mem_cons_self
      exact (ih horder.of_cons).trans hprev
    · exact le_rfl

/-- A later word never stood longer than the words before it. -/
theorem stoodSince_mono {i j : Nat} (hij : i ≤ j) :
    stoodSince hyp i older ≤ stoodSince hyp j older := by
  induction older generalizing hyp with
  | nil => exact le_rfl
  | cons prev older ih =>
    unfold stoodSince
    by_cases hj : (tokenise hyp.text).take j <+: tokenise prev.text
    · have hi : (tokenise hyp.text).take i <+: tokenise prev.text :=
        (List.take_prefix_take_left hij).trans hj
      rw [if_pos hi, if_pos hj]
      exact ih horder.of_cons
    · rw [if_neg hj]
      exact stoodSince_le horder i

end

/-! ## The clock after some calls -/

namespace WordClock

/-- The clock after some stamps, each of a transcript and its end of audio. -/
def stamped (calls : List (String × ℚ)) : WordClock :=
  calls.foldl (fun c call => (c.stamp call.1 call.2).1) fresh

/-- A call, as the hypothesis that it stamps. -/
def heardAs (call : String × ℚ) : Hypothesis := .spoken call.1 false call.2

theorem stamped_after (calls : List (String × ℚ)) (call : String × ℚ) :
    (stamped (calls ++ [call])).After (heardAs call) (calls.map heardAs).reverse := by
  induction calls using List.reverseRecOn generalizing call with
  | nil => exact after_first (heardAs call)
  | append_singleton calls prev ih =>
    rw [List.map_append, List.reverse_append]
    have hprev := (ih prev).stamp (heardAs call)
    unfold stamped at hprev ⊢
    rw [List.foldl_append]
    exact hprev

/-- Each word starts where the one before it ended. -/
theorem timings_starts (previous : ℚ) (l : List (String × ℚ)) :
    (timings previous l).map (·.t_audio_start) =
      (previous :: (timings previous l).map (·.t_audio_end)).dropLast := by
  induction l generalizing previous with
  | nil => rfl
  | cons x l ih =>
    rw [timings, List.map_cons, List.map_cons, ih]
    rfl

/-- The newest calls in a row whose texts start with the first `i` words of the
newest text, the oldest first. -/
def unbroken (i : Nat) (calls : List (String × ℚ)) (call : String × ℚ) : List (String × ℚ) :=
  (calls ++ [call]).rtakeWhile fun x => decide ((tokenise call.1).take i <+: tokenise x.1)

theorem standing_heardAs (i : Nat) (calls : List (String × ℚ)) (call : String × ℚ) :
    standing i (heardAs call) (calls.map heardAs).reverse =
      (unbroken i calls call).reverse.map heardAs := by
  unfold standing unbroken List.rtakeWhile
  rw [List.reverse_reverse, List.reverse_append, List.reverse_singleton, List.singleton_append,
    ← List.map_reverse, ← List.map_cons, List.takeWhile_map]
  rfl

/-- A word stands since the earliest call of the run. -/
theorem stoodSince_heardAs (calls : List (String × ℚ)) (call : String × ℚ) {i : Nat}
    (hi : i ≤ (tokenise call.1).length) : ∃ first, (unbroken i calls call).head? = some first ∧
      stoodSince (heardAs call) i (calls.map heardAs).reverse = first.2 := by
  have htext : i ≤ (tokenise (heardAs call).text).length := hi
  obtain ⟨hyp, hlast, hstop⟩ := stoodSince_eq htext (calls.map heardAs).reverse
  rw [standing_heardAs, List.getLast?_map, List.getLast?_reverse, Option.map_eq_some_iff] at hlast
  obtain ⟨first, hfirst, rfl⟩ := hlast
  exact ⟨first, hfirst, hstop⟩

/-- What a stamp returns are the words of the transcript, with the stamps that
they stood with. -/
theorem stamp_timings (calls : List (String × ℚ)) (text : String) (audio_end : ℚ) :
    ((stamped calls).stamp text audio_end).2.map (·.word) = tokenise text ∧
      ((stamped calls).stamp text audio_end).2.map (·.t_audio_end) =
        stampsOf (heardAs (text, audio_end)) (calls.map heardAs).reverse := by
  have hafter := stamped_after calls (text, audio_end)
  unfold stamped at hafter
  rw [List.foldl_append] at hafter
  exact hafter.timings 0

/-- Calls that end in order, the newest first. -/
theorem heardAs_in_order {calls : List (String × ℚ)} {call : String × ℚ}
    (horder : (calls ++ [call]).Pairwise fun x y => x.2 ≤ y.2) :
    (heardAs call :: (calls.map heardAs).reverse).Pairwise
      fun x y => y.t_audio_end ≤ x.t_audio_end := by
  have hreverse : heardAs call :: (calls.map heardAs).reverse =
      ((calls ++ [call]).map heardAs).reverse := by
    rw [List.map_append, List.reverse_append]
    rfl
  rw [hreverse, List.pairwise_reverse, List.pairwise_map]
  exact horder

/-- The stamp at a place of the text is that of the words up to it. -/
theorem stamp_at {hyp : Hypothesis} {older : List Hypothesis} {i : Nat} {stop : ℚ}
    (h : (stampsOf hyp older)[i]? = some stop) :
    i < (tokenise hyp.text).length ∧ stop = stoodSince hyp (i + 1) older := by
  unfold stampsOf at h
  rw [List.getElem?_map, Option.map_eq_some_iff] at h
  obtain ⟨j, hj, rfl⟩ := h
  obtain ⟨hlt, rfl⟩ := List.getElem?_eq_some_iff.mp hj
  rw [List.length_range] at hlt
  rw [List.getElem_range]
  exact ⟨hlt, rfl⟩

/-- A stamp returns the words of the transcript, one after another from 0 on.
Each ends where the earliest call of the run that shares it ended, and when the
calls end in order the words do, none after the newest call. -/
theorem a_word_keeps_the_stamp_it_stood_with (calls : List (String × ℚ)) (text : String)
    (audio_end : ℚ) :
    ((stamped calls).stamp text audio_end).2.map (·.word) = tokenise text ∧
    (∀ i timing, ((stamped calls).stamp text audio_end).2[i]? = some timing →
      ∃ first, (unbroken (i + 1) calls (text, audio_end)).head? = some first ∧
        timing.t_audio_end = first.2) ∧
    ((stamped calls).stamp text audio_end).2.map (·.t_audio_start) =
      (0 :: ((stamped calls).stamp text audio_end).2.map (·.t_audio_end)).dropLast ∧
    ((calls ++ [(text, audio_end)]).Pairwise (fun x y => x.2 ≤ y.2) →
      (((stamped calls).stamp text audio_end).2.map (·.t_audio_end)).Pairwise (· ≤ ·) ∧
      ∀ timing ∈ ((stamped calls).stamp text audio_end).2, timing.t_audio_end ≤ audio_end) := by
  obtain ⟨hwords, hends⟩ := stamp_timings calls text audio_end
  refine ⟨hwords, ?_, timings_starts 0 _, ?_⟩
  · intro i timing hi
    have hstop : (stampsOf (heardAs (text, audio_end)) (calls.map heardAs).reverse)[i]? =
        some timing.t_audio_end := by
      rw [← hends, List.getElem?_map, hi, Option.map_some]
    obtain ⟨hlt, hend⟩ := stamp_at hstop
    obtain ⟨first, hfirst, hstood⟩ :=
      stoodSince_heardAs calls (text, audio_end) (Nat.succ_le_of_lt hlt)
    exact ⟨first, hfirst, hend.trans hstood⟩
  · intro horder
    have hnewest := heardAs_in_order horder
    constructor
    · rw [hends, stampsOf, List.pairwise_map]
      apply List.pairwise_lt_range.imp
      intro i j hij
      exact stoodSince_mono hnewest (by omega)
    · intro timing hmem
      have hstamp : timing.t_audio_end ∈ stampsOf (heardAs (text, audio_end))
          (calls.map heardAs).reverse := by
        rw [← hends]
        exact List.mem_map_of_mem hmem
      obtain ⟨i, -, hi⟩ := List.mem_map.mp hstamp
      rw [← hi]
      exact stoodSince_le hnewest (i + 1)

/-- The second word is revised, and the first one keeps its stamp. -/
theorem a_word_keeps_the_stamp_it_stood_with_in_a_revision :
    ((stamped [("we where", 1), ("we were", 2)]).stamp "we were here" 3).2.map (·.t_audio_end) =
        [1, 2, 3] ∧
      (((stamped [("we where", 1), ("we were", 2)]).stamp "we were here" 3).2.map
        (·.t_audio_end)).Pairwise (· ≤ ·) :=
  ⟨by decide +kernel, ((a_word_keeps_the_stamp_it_stood_with [("we where", 1), ("we were", 2)]
    "we were here" 3).2.2.2 (by decide +kernel)).1⟩

end WordClock

end lad_translate.stt_fastconformer
