-- The revision flag of a chunk against what the audience heard. The check
-- compares each hypothesis with the one before it, so the flag of a chunk says
-- whether some hypothesis left the words of the hypothesis that the chunk
-- before was cut from. Those are the spoken words only as long as that
-- hypothesis still started with them.
import LadTranslate.Emissions

namespace lad_translate.phrase_chunker

/-! ## What was heard since a chunk -/

/-- A call as the audience sees it: its hypothesis, and the chunks it emitted. -/
structure Turn where
  fed : Option Hypothesis
  chunks : List PhraseChunk

/-- The turn of a call. -/
def turnOf (s : Talk) (a : Call) (t : Talk) : List Turn :=
  [⟨a.fed, t.emitted.drop s.emitted.length⟩]

/-- A turn in which nothing was said. -/
def Turn.silent (turn : Turn) : Bool := turn.chunks.isEmpty

/-- The hypotheses of the turns after the newest one that said something. -/
def heardSince (turns : List Turn) : List Hypothesis :=
  (turns.rtakeWhile Turn.silent).filterMap Turn.fed

/-- The newest hypothesis at the newest turn that said something. -/
def heardBy (turns : List Turn) : Option Hypothesis :=
  ((turns.rdropWhile Turn.silent).filterMap Turn.fed).getLast?

theorem heardSince_silent {turns : List Turn} {turn : Turn} (h : turn.silent) :
    heardSince (turns ++ [turn]) = heardSince turns ++ turn.fed.toList := by
  unfold heardSince
  rw [List.rtakeWhile_concat_pos _ _ _ h, List.filterMap_append]
  cases hfed : turn.fed <;> simp [hfed]

theorem heardBy_silent {turns : List Turn} {turn : Turn} (h : turn.silent) :
    heardBy (turns ++ [turn]) = heardBy turns := by
  unfold heardBy
  rw [List.rdropWhile_concat_pos _ _ _ h]

theorem heardSince_loud {turns : List Turn} {turn : Turn} (h : ¬ turn.silent) :
    heardSince (turns ++ [turn]) = [] := by
  unfold heardSince
  rw [List.rtakeWhile_concat_neg _ _ _ h]
  rfl

theorem heardBy_loud {turns : List Turn} {turn : Turn} (h : ¬ turn.silent) :
    heardBy (turns ++ [turn]) = ((turns ++ [turn]).filterMap Turn.fed).getLast? := by
  unfold heardBy
  rw [List.rdropWhile_concat_neg _ _ _ h]

/-! ## Starting with some words -/

/-- Two lists of words of one length are the start of one list only when they
are the same. -/
theorem eq_of_both_start {said kept y : List String} (hlen : kept.length = said.length)
    (hsaid : said <+: y) (hkept : kept <+: y) : kept = said :=
  (List.prefix_of_prefix_length_le hkept hsaid hlen.le).eq_of_length hlen

/-- Leaving the start of one list and leaving the spoken words are the same for
some lists exactly when the spoken words are that start, there are no lists, or
the lists leave both. -/
theorem leaves_iff {said base : List String} (hle : said.length ≤ base.length)
    (heard : List (List String)) :
    ((∃ y ∈ heard, ¬ base.take said.length <+: y) ↔ ∃ y ∈ heard, ¬ said <+: y) ↔
      heard = [] ∨ said <+: base ∨
        ((∃ y ∈ heard, ¬ base.take said.length <+: y) ∧ ∃ y ∈ heard, ¬ said <+: y) := by
  have hlen : (base.take said.length).length = said.length := by
    rw [List.length_take]
    omega
  by_cases hsaid : said <+: base
  · have heq := List.prefix_iff_eq_take.mp hsaid
    rw [← heq]
    simp [hsaid]
  · have hne : base.take said.length ≠ said := fun heq =>
      hsaid (List.prefix_iff_eq_take.mpr heq.symm)
    cases heard with
    | nil => simp
    | cons y heard =>
      -- no list starts with both
      have hy : ¬ base.take said.length <+: y ∨ ¬ said <+: y := by
        by_contra hboth
        push Not at hboth
        exact hne (eq_of_both_start hlen hboth.2 hboth.1)
      constructor
      · intro hiff
        refine Or.inr (Or.inr ?_)
        rcases hy with hy | hy
        · have hex : ∃ x ∈ y :: heard, ¬ base.take said.length <+: x := ⟨y, List.mem_cons_self, hy⟩
          exact ⟨hex, hiff.mp hex⟩
        · have hex : ∃ x ∈ y :: heard, ¬ said <+: x := ⟨y, List.mem_cons_self, hy⟩
          exact ⟨hiff.mpr hex, hex⟩
      · rintro (hnil | hpre | ⟨h1, h2⟩)
        · cases hnil
        · exact absurd hpre hsaid
        · exact ⟨fun _ => h2, fun _ => h1⟩

/-! ## The flag along a talk -/

section

variable [Unicode] {config : ChunkerConfig} {h : 1 ≤ config.agreement_n} {ls : List Call}
  {s t : Talk} {a : Call} {turns : List Turn}

/-- The words of the hypothesis that the newest chunk was cut from. -/
def baseOf (turns : List Turn) : List String :=
  ((heardBy turns).map fun hyp => normalised hyp.text).getD []

/-- The flag watches whether the hypotheses since the newest chunk start as the
one that it was cut from. -/
structure Watched (ls : List Call) (turns : List Turn) (t : Talk) : Prop where
  fed : turns.filterMap Turn.fed = ls.filterMap Call.fed
  covers : t.chunker.tracker.committed ≤ (baseOf turns).length
  latest : t.chunker.tracker.latest =
    ((heardSince turns).getLast?.map fun hyp => normalised hyp.text).getD (baseOf turns)
  flag : t.chunker.tracker.contradicted = true ↔ ∃ hyp ∈ heardSince turns,
    ¬ (baseOf turns).take t.chunker.tracker.committed <+: normalised hyp.text

theorem heard_latest (c : PhraseChunker) (hyp : Hypothesis) :
    (c.heard hyp).tracker.latest = normalised hyp.text := by
  show (c.tracker.add hyp).latest = _
  rw [StabilityTracker.latest, StabilityTracker.add_latest_surface]
  rfl

/-- While the flag is down, the newest hypothesis starts as the base does. -/
theorem Watched.newest (hw : Watched ls turns t) (hdown : t.chunker.tracker.contradicted = false) :
    (baseOf turns).take t.chunker.tracker.committed <+: t.chunker.tracker.latest := by
  rw [hw.latest]
  cases hlast : (heardSince turns).getLast? with
  | none => exact List.take_prefix _ _
  | some hyp =>
    by_contra hleaves
    have hflag := hw.flag.mpr ⟨hyp, List.mem_of_getLast? hlast, hleaves⟩
    rw [hdown] at hflag
    cases hflag

/-- The flag once the hypothesis of a call is recorded. -/
theorem Watched.told_flag (hw : Watched ls turns s) (hf : Faithful s) (a : Call) :
    (s.chunker.told a).tracker.contradicted = true ↔
      ∃ hyp ∈ heardSince turns ++ a.fed.toList,
        ¬ (baseOf turns).take s.chunker.tracker.committed <+: normalised hyp.text := by
  cases a with
  | tick now =>
    rw [show (Call.tick now).fed.toList = [] from rfl, List.append_nil]
    exact hw.flag
  | flush =>
    rw [show Call.flush.fed.toList = [] from rfl, List.append_nil]
    exact hw.flag
  | feed hyp =>
    have hadd : (s.chunker.told (.feed hyp)).tracker.contradicted =
        (s.chunker.tracker.contradicted || s.chunker.tracker.disagrees (normalised hyp.text)) :=
      StabilityTracker.add_contradicted s.chunker.tracker hyp
    have hlist : heardSince turns ++ (Call.feed hyp).fed.toList = heardSince turns ++ [hyp] := rfl
    rw [hadd, hlist, Bool.or_eq_true, hw.flag]
    have hlen : ((baseOf turns).take s.chunker.tracker.committed).length =
        s.chunker.tracker.committed := by
      rw [List.length_take, min_eq_left hw.covers]
    constructor
    · intro hraised
      by_cases hdown : s.chunker.tracker.contradicted = false
      · have hprev := hw.newest hdown
        rw [← hf.newest] at hprev
        rcases hraised with ⟨x, hx, hleaves⟩ | hdisagrees
        · exact ⟨x, List.mem_append_left _ hx, hleaves⟩
        · refine ⟨hyp, by simp, ?_⟩
          intro hstarts
          rw [not_disagrees_of_isPrefix hlen hprev hstarts] at hdisagrees
          cases hdisagrees
      · obtain ⟨x, hx, hleaves⟩ := hw.flag.mp (by simpa using hdown)
        exact ⟨x, List.mem_append_left _ hx, hleaves⟩
    · rintro ⟨x, hx, hleaves⟩
      rcases List.mem_append.mp hx with hx | hx
      · exact Or.inl ⟨x, hx, hleaves⟩
      · rw [List.mem_singleton.mp hx] at hleaves
        by_cases hdown : s.chunker.tracker.contradicted = false
        · have hprev := hw.newest hdown
          rw [← hf.newest] at hprev
          refine Or.inr ?_
          by_contra hquiet
          rw [Bool.not_eq_true] at hquiet
          exact hleaves (prefix_of_not_disagrees hlen hprev hquiet)
        · exact Or.inl (hw.flag.mp (by simpa using hdown))

omit [Unicode] in
theorem commits_nil {hyp : Hypothesis} {now : Option ℚ} {c c' : PhraseChunker}
    (hc : PhraseChunker.Commits hyp now c [] c') : c' = c := by
  cases hc with
  | nil c => rfl

omit [Unicode] in
/-- Commits leave the flag as it was when there are none, and else down. -/
theorem commits_flag {hyp : Hypothesis} {now : Option ℚ} {c c' : PhraseChunker}
    {out : List PhraseChunk} (hc : PhraseChunker.Commits hyp now c out c') :
    c'.tracker.contradicted = (out.isEmpty && c.tracker.contradicted) := by
  induction hc with
  | nil c => rfl
  | cons hs ht rest ih =>
    rw [ih]
    simp

omit [Unicode] in
/-- No commit takes a word that the newest hypothesis has not. -/
theorem commits_within {hyp : Hypothesis} {now : Option ℚ} {c c' : PhraseChunker}
    {out : List PhraseChunk} (hc : PhraseChunker.Commits hyp now c out c') (hout : out ≠ []) :
    c'.tracker.committed ≤ c.tracker.latest_surface.length := by
  have hsum := hc.committed
  cases hc with
  | nil c => exact absurd rfl hout
  | cons hs ht rest =>
    obtain ⟨hne, rfl⟩ := StabilityTracker.stablePrefix_eq_some.mp hs
    have hpos := List.length_pos_iff.mpr hne
    have hlen := StabilityTracker.outstanding_length c.tracker
    omega

theorem watched_step (hr : (talks config h).run ls = some s)
    (hs : (talks config h).step s a = some t) (hw : Watched ls turns s) :
    Watched (ls ++ [a]) (turns ++ turnOf s a t) t := by
  obtain ⟨hm, out, hem, hcalls⟩ := step_commits hr hs
  have hf := talks_faithful hr
  have hflag := hw.told_flag hf a
  have hturn : turnOf s a t = [Turn.mk a.fed out] := by
    rw [turnOf, hem, List.drop_left]
  have hfed : (turns ++ [Turn.mk a.fed out]).filterMap Turn.fed = (ls ++ [a]).filterMap Call.fed := by
    rw [List.filterMap_append, hw.fed, List.filterMap_append]
    cases a <;> rfl
  have hlatest : (s.chunker.told a).tracker.latest =
      ((heardSince turns ++ a.fed.toList).getLast?.map fun hyp => normalised hyp.text).getD
        (baseOf turns) := by
    cases a with
    | feed hyp =>
      rw [show (Call.feed hyp).fed.toList = [hyp] from rfl, List.getLast?_concat]
      exact heard_latest s.chunker hyp
    | tick now =>
      rw [show (Call.tick now).fed.toList = [] from rfl, List.append_nil]
      exact hw.latest
    | flush =>
      rw [show Call.flush.fed.toList = [] from rfl, List.append_nil]
      exact hw.latest
  rw [hturn]
  by_cases hout : out = []
  · -- nothing was said, so the hypothesis is one more since the newest chunk
    subst hout
    have hsame : t.chunker.tracker = (s.chunker.told a).tracker := by
      rcases hcalls with ⟨-, hc⟩ | ⟨hyp, now, -, hc⟩
      · rw [hc]
      · rw [commits_nil hc]
    have hsilent : (Turn.mk a.fed []).silent := rfl
    have hbase : baseOf (turns ++ [Turn.mk a.fed []]) = baseOf turns := by
      rw [baseOf, heardBy_silent hsilent, baseOf]
    refine ⟨hfed, ?_, ?_, ?_⟩
    · rw [hsame, hbase, PhraseChunker.told_committed]
      exact hw.covers
    · rw [hsame, hbase, heardSince_silent hsilent, hlatest]
    · rw [hsame, hbase, heardSince_silent hsilent, PhraseChunker.told_committed, hflag]
  · rcases hcalls with ⟨hnil, -⟩ | ⟨hyp, now, hl, hc⟩
    · exact absurd hnil hout
    · have hloud : ¬ (Turn.mk a.fed out).silent := by
        simpa [Turn.silent] using hout
      have hbase : baseOf (turns ++ [Turn.mk a.fed out]) = normalised hyp.text := by
        have hlast : ((ls ++ [a]).filterMap Call.fed).getLast? = some hyp := hl
        rw [baseOf, heardBy_loud hloud, hfed, hlast]
        rfl
      have hsurface := hm.surface
      rw [hl] at hsurface
      refine ⟨hfed, ?_, ?_, ?_⟩
      · have hwithin := commits_within hc hout
        rw [hsurface] at hwithin
        rw [hbase, normalised, List.length_map]
        exact hwithin
      · rw [hbase, heardSince_loud hloud, StabilityTracker.latest, hc.frame.2.2.2.2.1, hsurface]
        rfl
      · rw [commits_flag hc, heardSince_loud hloud]
        simp [hout]

theorem watched_of_run (hr : (talks config h).run ls = some t) :
    Watched ls ((talks config h).history turnOf ls) t := by
  refine (talks config h).run_induction
    (P := fun ls t => Watched ls ((talks config h).history turnOf ls) t) ?_ ?_ hr
  · exact ⟨rfl, Nat.zero_le _, rfl, by simp [talks, PhraseChunker.fresh, StabilityTracker.fresh,
      heardSince]⟩
  · intro ls s a t hs hw hstep
    rw [(talks config h).history_snoc turnOf hs hstep]
    exact watched_step hs hstep hw

/-- The hypotheses heard since the chunk before: the ones since the newest chunk
and the one of the call, for the first chunk of a call, and none for the next. -/
def heardFor (turns : List Turn) (a : Call) (done : List PhraseChunk) : List Hypothesis :=
  if done = [] then heardSince turns ++ a.fed.toList else []

/-- The words that the audience heard before a chunk, when a call emitted some
chunks before it. -/
def said (s : Talk) (done : List PhraseChunk) : List String :=
  Talk.spoken ⟨s.chunker, s.emitted ++ done⟩

end

/-- The flag of a chunk says whether some hypothesis since the chunk before left
the words that the audience heard, exactly when there was no hypothesis since,
or the one that the chunk before was cut from still started with those words, or
the hypotheses since left both its first words and the words heard. -/
theorem a_revision_is_flagged_iff [Unicode] (config : ChunkerConfig)
    (h : 1 ≤ config.agreement_n) (hmax : 1 ≤ config.max_words) (ls : List Call) (a : Call) :
    ∃ s t out, (talks config h).run ls = some s ∧ (talks config h).run (ls ++ [a]) = some t ∧
      t.emitted = s.emitted ++ out ∧ ∀ done chunk rest, out = done ++ chunk :: rest →
        ((chunk.revised_after_commit = true ↔
            ∃ hyp ∈ heardFor ((talks config h).history turnOf ls) a done,
              ¬ said s done <+: normalised hyp.text) ↔
          heardFor ((talks config h).history turnOf ls) a done = [] ∨
          said s done <+: baseOf ((talks config h).history turnOf ls) ∨
          ((∃ hyp ∈ heardFor ((talks config h).history turnOf ls) a done,
              ¬ (baseOf ((talks config h).history turnOf ls)).take (said s done).length <+:
                normalised hyp.text) ∧
            ∃ hyp ∈ heardFor ((talks config h).history turnOf ls) a done,
              ¬ said s done <+: normalised hyp.text)) := by
  obtain ⟨t, ht⟩ := talks_total config h hmax (ls ++ [a])
  obtain ⟨s, hs, hstep⟩ := (talks config h).run_snoc_some.mp ht
  obtain ⟨-, out, hem, -⟩ := step_commits hs hstep
  refine ⟨s, t, out, hs, ht, hem, ?_⟩
  rintro done chunk rest rfl
  obtain ⟨hyp, now, d, stable, reason, -, -, hdone, -, -, hchunk⟩ := step_emits hs hstep hem
  have hflag : chunk.revised_after_commit = d.tracker.contradicted :=
    congrArg PhraseChunk.revised_after_commit hchunk
  rw [commits_flag hdone] at hflag
  by_cases hnil : done = []
  · subst hnil
    have hw := watched_of_run hs
    have hf := talks_faithful hs
    have hlen : (said s []).length = s.chunker.tracker.committed := by
      rw [said, List.append_nil, Talk.spoken, List.length_map]
      exact hf.count
    have htold := hw.told_flag hf a
    have hcovers : (said s []).length ≤ (baseOf ((talks config h).history turnOf ls)).length :=
      hlen ▸ hw.covers
    have hleaves := leaves_iff hcovers
      ((heardFor ((talks config h).history turnOf ls) a []).map fun hyp => normalised hyp.text)
    simp only [List.mem_map, exists_exists_and_eq_and, List.map_eq_nil_iff] at hleaves
    rw [← hleaves, hflag, List.isEmpty_nil, Bool.true_and, htold, ← hlen]
    rfl
  · -- the chunk before it came out in the same call
    have hnone : heardFor ((talks config h).history turnOf ls) a done = [] := if_neg hnil
    rw [hflag, hnone]
    simp [hnil]

/-! ## Two talks with a revision -/

open ascii

/-- The second hypothesis leaves the words "one two", and the third one too. -/
def revisedTalk : List Call :=
  [.feed (.spoken "one two." false 0),
    .feed (.spoken "one three" false 1),
    .feed (.spoken "one three four five." false 2)]

/-- One more hypothesis without the words "one two". -/
def stillRevised : Call := .feed (.spoken "one three four five six seven." false 3)

/-- The flag of a chunk of a talk with a revision. -/
theorem a_revision_is_flagged_in_a_revised_talk :
    ∃ s t out, (talks { agreement_n := 1, min_words := 1 } (by decide)).run revisedTalk = some s ∧
      (talks { agreement_n := 1, min_words := 1 } (by decide)).run (revisedTalk ++ [.flush]) =
        some t ∧
      t.emitted = s.emitted ++ out ∧ ∀ done chunk rest, out = done ++ chunk :: rest →
        (said s done <+: baseOf ((talks { agreement_n := 1, min_words := 1 } (by decide)).history
          turnOf revisedTalk) →
        (chunk.revised_after_commit = true ↔
          ∃ hyp ∈ heardFor ((talks { agreement_n := 1, min_words := 1 } (by decide)).history
            turnOf revisedTalk) .flush done, ¬ said s done <+: normalised hyp.text)) := by
  obtain ⟨s, t, out, hs, ht, hem, hall⟩ := a_revision_is_flagged_iff
    { agreement_n := 1, min_words := 1 } (by decide) (by decide) revisedTalk .flush
  refine ⟨s, t, out, hs, ht, hem, ?_⟩
  intro done chunk rest hout hstarts
  exact (hall done chunk rest hout).mpr (Or.inr (Or.inl hstarts))

/-- The audience heard "one two", and the newest hypothesis says "one three"
still, but the flag of its chunk is down. -/
theorem a_lasting_revision_is_missed :
    ∃ s t chunk, (talks { agreement_n := 1, min_words := 1 } (by decide)).run revisedTalk = some s ∧
      (talks { agreement_n := 1, min_words := 1 } (by decide)).run (revisedTalk ++ [stillRevised]) =
        some t ∧
      t.emitted = s.emitted ++ [chunk] ∧
      ¬ (chunk.revised_after_commit = true ↔
        ∃ hyp ∈ heardFor ((talks { agreement_n := 1, min_words := 1 } (by decide)).history
          turnOf revisedTalk) stillRevised [], ¬ said s [] <+: normalised hyp.text) := by
  obtain ⟨t, ht⟩ := talks_total { agreement_n := 1, min_words := 1 } (by decide) (by decide)
    (revisedTalk ++ [stillRevised])
  obtain ⟨s, hs, hstep⟩ := (talks _ _).run_snoc_some.mp ht
  obtain ⟨-, out, hem, -⟩ := step_commits hs hstep
  have hsaid : ((talks { agreement_n := 1, min_words := 1 } (by decide)).run revisedTalk).map
      (fun s => (s.emitted.length, said s [])) = some (2, ["one", "two", "four", "five"]) := by
    decide +kernel
  have hflags : ((talks { agreement_n := 1, min_words := 1 } (by decide)).run
      (revisedTalk ++ [stillRevised])).map (·.emitted.map (·.revised_after_commit)) =
        some [false, true, false] := by
    decide +kernel
  rw [hs, Option.map_some, Option.some.injEq, Prod.mk.injEq] at hsaid
  rw [ht, Option.map_some, Option.some.injEq, hem, List.map_append] at hflags
  obtain ⟨hlength, hwords⟩ := hsaid
  -- the call emits one chunk
  have hout := congrArg (List.drop 2) hflags
  rw [List.drop_left' (by rw [List.length_map, hlength])] at hout
  obtain ⟨chunk, hone, hdown⟩ := List.map_eq_singleton_iff.mp hout
  rw [hone] at hem
  refine ⟨s, t, chunk, hs, ht, hem, ?_⟩
  intro hiff
  have hraised := hiff.mpr ⟨.spoken "one three four five six seven." false 3,
    by simp [heardFor, stillRevised, Call.fed], by rw [hwords]; decide +kernel⟩
  rw [hdown] at hraised
  cases hraised

end lad_translate.phrase_chunker
