-- The phrase chunker (chunker/chunker.py): revisable hypotheses in, committed
-- phrases out. Every call records at most one hypothesis and then commits
-- words from the front of what is outstanding, so `Commits` says what any
-- call can do.
import LadTranslate.Stability
import LadTranslate.Clause
import LadTranslate.Machines

open machines prefixes dicts

namespace lad_translate.phrase_chunker

/-- Commits stable, clause-aligned phrases from a revisable transcript stream. -/
structure PhraseChunker where
  config : ChunkerConfig
  tracker : StabilityTracker
  next_id : Nat
  last_hyp_wall : Option ℚ
  last_hyp : Option Hypothesis
  /-- Audio position of the last committed word. Start of the next chunk. -/
  audio_cursor : ℚ

namespace PhraseChunker

/-- A chunker that heard nothing yet. -/
def fresh (config : ChunkerConfig) (h : 1 ≤ config.agreement_n) : PhraseChunker where
  config := config
  tracker := StabilityTracker.fresh config.agreement_n h
  next_id := 0
  last_hyp_wall := none
  last_hyp := none
  audio_cursor := 0

/-- The constructor. The tracker refuses an `agreement_n` of 0. -/
def new (config : ChunkerConfig) : Except String PhraseChunker := do
  let tracker ← StabilityTracker.new config.agreement_n
  return { config, tracker, next_id := 0, last_hyp_wall := none, last_hyp := none,
           audio_cursor := 0 }

theorem new_eq (config : ChunkerConfig) (h : 1 ≤ config.agreement_n) :
    new config = .ok (fresh config h) := by
  simp [new, StabilityTracker.new, h, fresh]

/-- Audio position of the last word in a chunk: the backend's own word timing,
or an interpolation across the hypothesis span. -/
def wordEndTime (hyp : Hypothesis) (absolute_word_index : Nat) : ℚ :=
  let words := hyp.words.getD []
  if words ≠ [] ∧ absolute_word_index ≤ words.length then
    match absolute_word_index with
    -- index -1 of a Python list is its last element
    | 0 => (words.getLast?.map (·.t_audio_end)).getD 0
    | i + 1 => (words[i]?.map (·.t_audio_end)).getD 0
  else
    let span := hyp.t_audio_end - hyp.t_audio_start
    let total_words := (tokenise hyp.text).length
    if total_words ≤ 0 ∨ span ≤ 0 then hyp.t_audio_end
    else
      let fraction := min 1 ((absolute_word_index : ℚ) / total_words)
      hyp.t_audio_start + span * fraction

/-- Emit the first `take` tokens of a stable prefix. -/
def commit (c : PhraseChunker) (hyp : Hypothesis) (stable : StablePrefix) (take : Nat)
    (reason : CommitReason) (now : Option ℚ) : PhraseChunker × PhraseChunk :=
  let committed_before := c.tracker.committed
  let tokens := stable.tokens.take take
  let t_audio_start := c.audio_cursor
  let t_audio_end := wordEndTime hyp (committed_before + take)
  let t_wall := now.getD hyp.t_wall
  let (revised, tracker) := c.tracker.resetContradiction
  let chunk : PhraseChunk := {
    chunk_id := c.next_id
    text := joinTokens tokens
    t_audio_start, t_audio_end
    t_wall_committed := t_wall
    reason
    word_count := take
    stability_lag := max 0 (t_wall - stable.first_seen_wall)
    revised_after_commit := revised }
  ({ c with
      tracker := tracker.commit take
      next_id := c.next_id + 1
      audio_cursor := t_audio_end }, chunk)

/-- Drain everything outstanding, respecting max_words. With nothing to take
(`max_words` 0) the loop never ends: the fuel runs out, and the result is
`none`. -/
def emitAllLoop (hyp : Hypothesis) (reason : CommitReason) (now : Option ℚ) :
    Nat → PhraseChunker → Option (PhraseChunker × List PhraseChunk)
  | 0, _ => none
  | fuel + 1, c =>
    match c.tracker.stablePrefix with
    | none => some (c, [])
    | some stable =>
      let take := min stable.tokens.length c.config.max_words
      let (c, chunk) := c.commit hyp stable take reason now
      (emitAllLoop hyp reason now fuel c).map fun (c, chunks) => (c, chunk :: chunks)

def emitAll (c : PhraseChunker) (hyp : Hypothesis) (reason : CommitReason) (now : Option ℚ) :
    Option (PhraseChunker × List PhraseChunk) :=
  emitAllLoop hyp reason now (c.tracker.outstanding.length + 1) c

variable [Unicode]

/-- The commit decision after an interim hypothesis. -/
def tryEmit (c : PhraseChunker) (hyp : Hypothesis) : PhraseChunker × List PhraseChunk :=
  match c.tracker.stablePrefix with
  | none => (c, [])
  | some stable =>
    let cfg := c.config
    let tokens := stable.tokens
    -- Hard ceiling. The speaker is not pausing and we cannot hold longer.
    if tokens.length ≥ cfg.max_words then
      let (c, chunk) := c.commit hyp stable cfg.max_words .maxWords none
      (c, [chunk])
    else
      let allow_weak := cfg.allow_conjunction_boundary &&
        decide ((tokens.length : ℚ) ≥ cfg.conjunction_threshold * cfg.max_words)
      let stop := (findBoundary tokens cfg.min_words allow_weak).1
      if stop > 0 then
        let (c, chunk) := c.commit hyp stable stop .clause none
        (c, [chunk])
      else
        -- Stable but no boundary in sight. Hold, up to the latency ceiling.
        let lag := hyp.t_wall - stable.first_seen_wall
        if lag ≥ cfg.max_wait_s ∧ tokens.length ≥ cfg.min_words then
          let (c, chunk) := c.commit hyp stable tokens.length .stabilityTimeout none
          (c, [chunk])
        else (c, [])

/-- The chunker with one more hypothesis recorded, before it decides. -/
def heard (c : PhraseChunker) (hyp : Hypothesis) : PhraseChunker :=
  { c with tracker := c.tracker.add hyp, last_hyp_wall := some hyp.t_wall, last_hyp := some hyp }

/-- Take one hypothesis. Return any phrases that became committable. -/
def feed (c : PhraseChunker) (hyp : Hypothesis) : Option (PhraseChunker × List PhraseChunk) :=
  let c := c.heard hyp
  if hyp.is_final then c.emitAll hyp .final none
  else some (c.tryEmit hyp)

omit [Unicode] in
/-- Call when no hypothesis has arrived for a while. -/
def tick (c : PhraseChunker) (now : ℚ) : Option (PhraseChunker × List PhraseChunk) :=
  match c.last_hyp_wall, c.last_hyp with
  | some last_hyp_wall, some last_hyp =>
    if now - last_hyp_wall < c.config.silence_commit_s then some (c, [])
    else c.emitAll last_hyp .silence (some now)
  | _, _ => some (c, [])

omit [Unicode] in
/-- Emit everything outstanding. Called at end of session. -/
def flush (c : PhraseChunker) : Option (PhraseChunker × List PhraseChunk) :=
  match c.last_hyp with
  | none => some (c, [])
  | some last_hyp => c.emitAll last_hyp .final none

/-! ## What a call can do -/

/-- Some commits, one after another, each from the front of what is
outstanding. -/
inductive Commits (hyp : Hypothesis) (now : Option ℚ) :
    PhraseChunker → List PhraseChunk → PhraseChunker → Prop
  | nil (c : PhraseChunker) : Commits hyp now c [] c
  | cons {c c' : PhraseChunker} {stable : StablePrefix} {take : Nat} {reason : CommitReason}
      {out : List PhraseChunk} (hs : c.tracker.stablePrefix = some stable)
      (ht : take ≤ stable.tokens.length)
      (rest : Commits hyp now (c.commit hyp stable take reason now).1 out c') :
      Commits hyp now c ((c.commit hyp stable take reason now).2 :: out) c'

omit [Unicode] in
theorem emitAllLoop_commits {hyp : Hypothesis} {reason : CommitReason} {now : Option ℚ}
    {fuel : Nat} {c c' : PhraseChunker} {out : List PhraseChunk}
    (h : emitAllLoop hyp reason now fuel c = some (c', out)) :
    Commits hyp now c out c' ∧ c'.tracker.outstanding = [] := by
  induction fuel generalizing c out with
  | zero => simp [emitAllLoop] at h
  | succ fuel ih =>
    unfold emitAllLoop at h
    split at h
    · rename_i hnone
      cases h
      exact ⟨.nil _, StabilityTracker.stablePrefix_eq_none.mp hnone⟩
    · rename_i stable hs
      simp only [Option.map_eq_some_iff, Prod.exists, Prod.mk.injEq] at h
      obtain ⟨d, chunks, hloop, rfl, rfl⟩ := h
      obtain ⟨hc, hnil⟩ := ih hloop
      exact ⟨.cons hs (min_le_left _ _) hc, hnil⟩

omit [Unicode] in
@[simp] theorem commit_config (c : PhraseChunker) (hyp : Hypothesis) (stable : StablePrefix)
    (take : Nat) (reason : CommitReason) (now : Option ℚ) :
    (c.commit hyp stable take reason now).1.config = c.config := rfl

omit [Unicode] in
@[simp] theorem commit_last_hyp (c : PhraseChunker) (hyp : Hypothesis) (stable : StablePrefix)
    (take : Nat) (reason : CommitReason) (now : Option ℚ) :
    (c.commit hyp stable take reason now).1.last_hyp = c.last_hyp := rfl

omit [Unicode] in
@[simp] theorem commit_tracker (c : PhraseChunker) (hyp : Hypothesis) (stable : StablePrefix)
    (take : Nat) (reason : CommitReason) (now : Option ℚ) :
    (c.commit hyp stable take reason now).1.tracker =
      { c.tracker with committed := c.tracker.committed + take, contradicted := false } := rfl

omit [Unicode] in
theorem outstanding_of_commit (c : PhraseChunker) (hyp : Hypothesis) (stable : StablePrefix)
    (take : Nat) (reason : CommitReason) (now : Option ℚ) :
    (c.commit hyp stable take reason now).1.tracker.outstanding =
      c.tracker.outstanding.drop take := by
  rw [← StabilityTracker.outstanding_commit]
  rfl

omit [Unicode] in
/-- With a word to take each time, the loop ends before the fuel does. -/
theorem emitAllLoop_ends {hyp : Hypothesis} {reason : CommitReason} {now : Option ℚ}
    {fuel : Nat} {c : PhraseChunker} (hmax : 1 ≤ c.config.max_words)
    (hf : c.tracker.outstanding.length < fuel) :
    ∃ r, emitAllLoop hyp reason now fuel c = some r := by
  induction fuel generalizing c with
  | zero => omega
  | succ fuel ih =>
    unfold emitAllLoop
    split
    · exact ⟨_, rfl⟩
    · rename_i stable hs
      obtain ⟨hne, rfl⟩ := StabilityTracker.stablePrefix_eq_some.mp hs
      have hpos := List.length_pos_iff.mpr hne
      simp only
      obtain ⟨r, hr⟩ := ih (c := (c.commit hyp ⟨c.tracker.outstanding, c.tracker.firstSeenWall⟩
        (min c.tracker.outstanding.length c.config.max_words) reason now).1) hmax (by
          rw [outstanding_of_commit, List.length_drop]
          omega)
      exact ⟨_, by rw [hr]; rfl⟩

omit [Unicode] in
theorem emitAll_commits {c c' : PhraseChunker} {hyp : Hypothesis} {reason : CommitReason}
    {now : Option ℚ} {out : List PhraseChunk} (h : c.emitAll hyp reason now = some (c', out)) :
    Commits hyp now c out c' ∧ c'.tracker.outstanding = [] :=
  emitAllLoop_commits h

omit [Unicode] in
theorem emitAll_ends (c : PhraseChunker) (hyp : Hypothesis) (reason : CommitReason)
    (now : Option ℚ) (hmax : 1 ≤ c.config.max_words) : ∃ r, c.emitAll hyp reason now = some r :=
  emitAllLoop_ends hmax (Nat.lt_succ_self _)

theorem tryEmit_commits (c : PhraseChunker) (hyp : Hypothesis) :
    Commits hyp none c (c.tryEmit hyp).2 (c.tryEmit hyp).1 := by
  unfold tryEmit
  split
  · exact .nil c
  · rename_i stable hs
    simp only
    split_ifs with h1 h2 h3
    · exact .cons hs h1 (.nil _)
    · exact .cons hs (findBoundary_le _ _ _) (.nil _)
    · exact .cons hs le_rfl (.nil _)
    · exact .nil c

theorem feed_commits {c c' : PhraseChunker} {hyp : Hypothesis} {out : List PhraseChunk}
    (h : c.feed hyp = some (c', out)) : Commits hyp none (c.heard hyp) out c' := by
  unfold feed at h
  simp only at h
  split at h
  · exact (emitAll_commits h).1
  · injection h with h
    have hc := tryEmit_commits (c.heard hyp) hyp
    rw [h] at hc
    exact hc

omit [Unicode] in
theorem tick_commits {c c' : PhraseChunker} {now : ℚ} {out : List PhraseChunk}
    (h : c.tick now = some (c', out)) :
    (c' = c ∧ out = []) ∨ ∃ hyp, c.last_hyp = some hyp ∧ Commits hyp (some now) c out c' := by
  unfold tick at h
  split at h
  · rename_i hl
    split at h
    · cases h
      exact Or.inl ⟨rfl, rfl⟩
    · exact Or.inr ⟨_, hl, (emitAll_commits h).1⟩
  · cases h
    exact Or.inl ⟨rfl, rfl⟩

omit [Unicode] in
theorem flush_commits {c c' : PhraseChunker} {out : List PhraseChunk}
    (h : c.flush = some (c', out)) :
    (c' = c ∧ out = []) ∨ ∃ hyp, c.last_hyp = some hyp ∧ Commits hyp none c out c' := by
  unfold flush at h
  split at h
  · cases h
    exact Or.inl ⟨rfl, rfl⟩
  · rename_i hl
    exact Or.inr ⟨_, hl, (emitAll_commits h).1⟩

omit [Unicode] in
/-- Commits move the commit counter and clear the flag. They leave the window,
the newest hypothesis and the configuration as they were. -/
theorem Commits.frame {hyp : Hypothesis} {now : Option ℚ} {c c' : PhraseChunker}
    {out : List PhraseChunk} (h : Commits hyp now c out c') :
    c'.config = c.config ∧ c'.last_hyp = c.last_hyp ∧ c'.tracker.n = c.tracker.n ∧
      c'.tracker.window = c.tracker.window ∧
      c'.tracker.latest_surface = c.tracker.latest_surface ∧
      c'.tracker.prefix_first_seen = c.tracker.prefix_first_seen := by
  induction h with
  | nil c => exact ⟨rfl, rfl, rfl, rfl, rfl, rfl⟩
  | cons hs ht rest ih => exact ih

omit [Unicode] in
/-- Commits take their words from the front of what was outstanding. -/
theorem Commits.committed {hyp : Hypothesis} {now : Option ℚ} {c c' : PhraseChunker}
    {out : List PhraseChunk} (h : Commits hyp now c out c') :
    c'.tracker.committed + c'.tracker.outstanding.length =
      c.tracker.committed + c.tracker.outstanding.length := by
  induction h with
  | nil c => rfl
  | @cons c c' stable take reason out hs ht rest ih =>
    obtain ⟨_, rfl⟩ := StabilityTracker.stablePrefix_eq_some.mp hs
    simp only at ht
    rw [ih, outstanding_of_commit, commit_tracker, List.length_drop]
    simp only
    omega

omit [Unicode] in
/-- A drain always ends, and commits every outstanding word. -/
theorem emitAll_drains (c : PhraseChunker) (hyp : Hypothesis) (reason : CommitReason)
    (now : Option ℚ) (hmax : 1 ≤ c.config.max_words) :
    ∃ c' out, c.emitAll hyp reason now = some (c', out) ∧
      c'.tracker.committed = c.tracker.committed + c.tracker.outstanding.length := by
  obtain ⟨⟨c', out⟩, hr⟩ := c.emitAll_ends hyp reason now hmax
  obtain ⟨hc, hnil⟩ := emitAll_commits hr
  refine ⟨c', out, hr, ?_⟩
  have := hc.committed
  rw [hnil, List.length_nil] at this
  exact this

end PhraseChunker

/-! ## Whole histories -/

/-- One call of the chunker. -/
inductive Call
  | feed (hyp : Hypothesis)
  | tick (now : ℚ)
  | flush

/-- A chunker and the chunks it emitted so far. -/
structure Talk where
  chunker : PhraseChunker
  emitted : List PhraseChunk

namespace Talk

/-- Every word emitted so far, in order. -/
def words (t : Talk) : List String := t.emitted.flatMap PhraseChunk.words

/-- One commit, and its chunk emitted. -/
def say (t : Talk) (hyp : Hypothesis) (stable : StablePrefix) (take : Nat) (reason : CommitReason)
    (now : Option ℚ) : Talk :=
  ⟨(t.chunker.commit hyp stable take reason now).1,
    t.emitted ++ [(t.chunker.commit hyp stable take reason now).2]⟩

section
variable (t : Talk) (hyp : Hypothesis) (stable : StablePrefix) (take : Nat) (reason : CommitReason)
  (now : Option ℚ)

@[simp] theorem say_config : (t.say hyp stable take reason now).chunker.config = t.chunker.config :=
  rfl

@[simp] theorem say_last_hyp :
    (t.say hyp stable take reason now).chunker.last_hyp = t.chunker.last_hyp := rfl

@[simp] theorem say_tracker : (t.say hyp stable take reason now).chunker.tracker =
    { t.chunker.tracker with
      committed := t.chunker.tracker.committed + take, contradicted := false } := rfl

@[simp] theorem say_emitted : (t.say hyp stable take reason now).emitted =
    t.emitted ++ [(t.chunker.commit hyp stable take reason now).2] := rfl

@[simp] theorem say_words : (t.say hyp stable take reason now).words =
    t.words ++ (t.chunker.commit hyp stable take reason now).2.words := by
  simp [words]

end

variable [Unicode]

/-- One more hypothesis recorded, before the chunker decides. -/
def hear (t : Talk) (hyp : Hypothesis) : Talk := { t with chunker := t.chunker.heard hyp }

@[simp] theorem hear_config (t : Talk) (hyp : Hypothesis) :
    (t.hear hyp).chunker.config = t.chunker.config := rfl

@[simp] theorem hear_last_hyp (t : Talk) (hyp : Hypothesis) :
    (t.hear hyp).chunker.last_hyp = some hyp := rfl

@[simp] theorem hear_tracker (t : Talk) (hyp : Hypothesis) :
    (t.hear hyp).chunker.tracker = t.chunker.tracker.add hyp := rfl

@[simp] theorem hear_emitted (t : Talk) (hyp : Hypothesis) : (t.hear hyp).emitted = t.emitted := rfl

@[simp] theorem hear_words (t : Talk) (hyp : Hypothesis) : (t.hear hyp).words = t.words := rfl

end Talk

variable [Unicode]

def PhraseChunker.call (c : PhraseChunker) : Call → Option (PhraseChunker × List PhraseChunk)
  | .feed hyp => c.feed hyp
  | .tick now => c.tick now
  | .flush => c.flush

/-- The machine of the calls on a fresh chunker. -/
def talks (config : ChunkerConfig) (h : 1 ≤ config.agreement_n) : Machine Talk Call where
  start := ⟨PhraseChunker.fresh config h, []⟩
  step t a := (t.chunker.call a).map fun (c, out) => ⟨c, t.emitted ++ out⟩

theorem talks_step {config : ChunkerConfig} {h : 1 ≤ config.agreement_n} {t t' : Talk} {a : Call} :
    (talks config h).step t a = some t' ↔
      ∃ out, t.chunker.call a = some (t'.chunker, out) ∧ t'.emitted = t.emitted ++ out := by
  simp only [talks, Option.map_eq_some_iff, Prod.exists]
  constructor
  · rintro ⟨c, out, hc, rfl⟩
    exact ⟨out, hc, rfl⟩
  · rintro ⟨out, hc, he⟩
    exact ⟨_, out, hc, by rw [← he]⟩

/-- The induction over histories. A call records at most one hypothesis, and
then it commits words one chunk at a time. -/
theorem talk_induction {config : ChunkerConfig} {h : 1 ≤ config.agreement_n}
    {P : List Call → Talk → Prop} (h0 : P [] ⟨PhraseChunker.fresh config h, []⟩)
    (hhear : ∀ ls t hyp, P ls t → P (ls ++ [.feed hyp]) (t.hear hyp))
    (hquiet : ∀ ls t a, (∀ hyp, a ≠ .feed hyp) → P ls t → P (ls ++ [a]) t)
    (hsay : ∀ ls (t : Talk) hyp now stable take reason, P ls t → t.chunker.last_hyp = some hyp →
      t.chunker.tracker.stablePrefix = some stable → take ≤ stable.tokens.length →
      P ls (t.say hyp stable take reason now))
    {ls : List Call} {t : Talk} (hr : (talks config h).run ls = some t) : P ls t := by
  have hall : ∀ ls hyp now c out c' out', c.last_hyp = some hyp → P ls ⟨c, out'⟩ →
      PhraseChunker.Commits hyp now c out c' → P ls ⟨c', out' ++ out⟩ := by
    intro ls hyp now c out c' out' hl hp hc
    induction hc generalizing out' with
    | nil c => simpa using hp
    | cons hs ht rest ih =>
      rw [List.append_cons]
      exact ih _ hl (hsay _ _ _ _ _ _ _ hp hl hs ht)
  refine (talks config h).run_induction h0 ?_ hr
  intro ls s a t _ hp ha
  obtain ⟨out, hcall, he⟩ := talks_step.mp ha
  obtain ⟨c, em⟩ := t
  simp only at hcall he
  subst he
  cases a with
  | feed hyp => exact hall _ hyp none _ _ _ _ rfl (hhear _ _ _ hp) (PhraseChunker.feed_commits hcall)
  | tick now =>
    have hp' := hquiet ls s (.tick now) (by simp) hp
    rcases PhraseChunker.tick_commits hcall with ⟨rfl, rfl⟩ | ⟨hyp, hl, hc⟩
    · simpa using hp'
    · exact hall _ hyp _ _ _ _ _ hl hp' hc
  | flush =>
    have hp' := hquiet ls s .flush (by simp) hp
    rcases PhraseChunker.flush_commits hcall with ⟨rfl, rfl⟩ | ⟨hyp, hl, hc⟩
    · simpa using hp'
    · exact hall _ hyp _ _ _ _ _ hl hp' hc

/-- No call changes the configuration. -/
theorem talks_config {config : ChunkerConfig} {h : 1 ≤ config.agreement_n} {ls : List Call}
    {t : Talk} (hr : (talks config h).run ls = some t) :
    t.chunker.config = config ∧ t.chunker.tracker.n = config.agreement_n :=
  talk_induction
    (P := fun _ t => t.chunker.config = config ∧ t.chunker.tracker.n = config.agreement_n)
    ⟨rfl, rfl⟩ (fun _ t hyp hp => by simpa using hp) (fun _ _ _ _ hp => hp)
    (fun _ t _ _ _ _ _ hp _ _ _ => hp) hr

/-! ## What a history leaves in the window -/

/-- The hypothesis of a call. -/
def Call.fed : Call → Option Hypothesis
  | .feed hyp => some hyp
  | _ => none

/-- The most recent hypothesis of a history. -/
def lastFed (ls : List Call) : Option Hypothesis := (ls.filterMap Call.fed).getLast?

/-- The entries that a history added to the window, oldest first. -/
def entries (n : Nat) (ls : List Call) : List (List String) :=
  (ls.filterMap Call.fed).flatMap (StabilityTracker.entriesOf n)

omit [Unicode] in
theorem lastFed_feed (ls : List Call) (hyp : Hypothesis) :
    lastFed (ls ++ [.feed hyp]) = some hyp := by
  simp [lastFed, Call.fed]

theorem entries_feed (n : Nat) (ls : List Call) (hyp : Hypothesis) :
    entries n (ls ++ [.feed hyp]) = entries n ls ++ StabilityTracker.entriesOf n hyp := by
  simp [entries, Call.fed]

omit [Unicode] in
theorem fed_of_quiet {a : Call} (h : ∀ hyp, a ≠ .feed hyp) : a.fed = none := by
  cases a with
  | feed hyp => exact absurd rfl (h hyp)
  | tick now => rfl
  | flush => rfl

/-- The prefix that a full window agrees on after these hypotheses. -/
def agreedAfter (n : Nat) (hyps : List Hypothesis) : List String :=
  let window := (hyps.flatMap (StabilityTracker.entriesOf n)).rtake n
  if window.length < n then [] else commonPrefix window

/-- The agreed length after each hypothesis, with the time of the hypothesis. -/
def sightings (n : Nat) (hyps : List Hypothesis) : List (Nat × ℚ) :=
  hyps.zipIdx.map fun (hyp, i) => ((agreedAfter n (hyps.take (i + 1))).length, hyp.t_wall)

theorem sightings_snoc (n : Nat) (hyps : List Hypothesis) (hyp : Hypothesis) :
    sightings n (hyps ++ [hyp]) =
      sightings n hyps ++ [((agreedAfter n (hyps ++ [hyp])).length, hyp.t_wall)] := by
  have hold : hyps.zipIdx.map (fun p =>
      ((agreedAfter n ((hyps ++ [hyp]).take (p.2 + 1))).length, p.1.t_wall)) = sightings n hyps := by
    apply List.map_congr_left
    intro p hp
    have hlt := (List.getElem?_eq_some_iff.mp (List.mem_zipIdx_iff_getElem?.mp hp)).1
    rw [List.take_append_of_le_length hlt]
  have hnew : (hyps ++ [hyp]).take (hyps.length + 1) = hyps ++ [hyp] :=
    List.take_of_length_le (by simp)
  rw [← hold, sightings, List.zipIdx_append, List.map_append]
  simp only [List.zipIdx_singleton, Nat.zero_add, List.map_cons, List.map_nil, hnew]

theorem mem_sightings {n : Nat} {hyps : List Hypothesis} {k : Nat} {w : ℚ} :
    (k, w) ∈ sightings n hyps ↔ ∃ i hyp, hyps[i]? = some hyp ∧
      (agreedAfter n (hyps.take (i + 1))).length = k ∧ hyp.t_wall = w := by
  simp only [sightings, List.mem_map, Prod.exists, List.mem_zipIdx_iff_getElem?, Prod.mk.injEq]
  constructor
  · rintro ⟨hyp, i, h⟩
    exact ⟨i, hyp, h⟩
  · rintro ⟨i, hyp, h⟩
    exact ⟨hyp, i, h⟩

/-- The chunker remembers the newest hypothesis, the last n entries, and when
each agreed length was first seen. -/
structure Remembers (n : Nat) (ls : List Call) (t : Talk) : Prop where
  n_eq : t.chunker.tracker.n = n
  window : t.chunker.tracker.window = (entries n ls).rtake n
  last_hyp : t.chunker.last_hyp = lastFed ls
  last_hyp_wall : t.chunker.last_hyp_wall = (lastFed ls).map (·.t_wall)
  surface : t.chunker.tracker.latest_surface =
    ((lastFed ls).map fun hyp => tokenise hyp.text).getD []
  first_seen : t.chunker.tracker.prefix_first_seen =
    setdefaults ∅ (sightings n (ls.filterMap Call.fed))

/-- What the window agrees on is a matter of the hypotheses heard. -/
theorem Remembers.agreedPrefix {n : Nat} {ls : List Call} {t : Talk} (h : Remembers n ls t) :
    t.chunker.tracker.agreedPrefix = agreedAfter n (ls.filterMap Call.fed) := by
  rw [StabilityTracker.agreedPrefix, h.window, h.n_eq]
  rfl

theorem Remembers.hear {n : Nat} {ls : List Call} {t : Talk} (h : Remembers n ls t)
    (hyp : Hypothesis) : Remembers n (ls ++ [.feed hyp]) (t.hear hyp) := by
  have hfed : (ls ++ [Call.feed hyp]).filterMap Call.fed = ls.filterMap Call.fed ++ [hyp] := by
    simp [Call.fed]
  have hwindow : (t.chunker.tracker.add hyp).window = (entries n (ls ++ [.feed hyp])).rtake n := by
    rw [StabilityTracker.add_window, h.n_eq, h.window, entries_feed,
      StabilityTracker.rtake_append_rtake]
  have hagreed : (t.chunker.tracker.add hyp).agreedLength =
      (agreedAfter n (ls.filterMap Call.fed ++ [hyp])).length := by
    rw [StabilityTracker.agreedLength_eq, StabilityTracker.agreedPrefix, hwindow,
      StabilityTracker.add_n, h.n_eq, ← hfed]
    rfl
  refine ⟨by simpa using h.n_eq, hwindow, ?_, ?_, ?_, ?_⟩
  · rw [Talk.hear_last_hyp, lastFed_feed]
  · rw [lastFed_feed]
    rfl
  · rw [lastFed_feed]
    exact StabilityTracker.add_latest_surface _ _
  · rw [Talk.hear_tracker, StabilityTracker.add_prefix_first_seen, h.first_seen, hagreed, hfed,
      sightings_snoc, setdefaults, setdefaults, List.foldl_append]
    rfl

/-- A call without a hypothesis leaves what is remembered as it was. -/
theorem Remembers.quiet {n : Nat} {ls : List Call} {t : Talk} (h : Remembers n ls t) {a : Call}
    (ha : ∀ hyp, a ≠ .feed hyp) : Remembers n (ls ++ [a]) t := by
  have hf : (ls ++ [a]).filterMap Call.fed = ls.filterMap Call.fed := by simp [fed_of_quiet ha]
  have he : entries n (ls ++ [a]) = entries n ls := by rw [entries, hf, entries]
  have hl : lastFed (ls ++ [a]) = lastFed ls := by rw [lastFed, hf, lastFed]
  obtain ⟨h1, h2, h3, h4, h5, h6⟩ := h
  exact ⟨h1, he ▸ h2, hl ▸ h3, hl ▸ h4, hl ▸ h5, hf ▸ h6⟩

theorem talks_remember {config : ChunkerConfig} {h : 1 ≤ config.agreement_n} {ls : List Call}
    {t : Talk} (hr : (talks config h).run ls = some t) : Remembers config.agreement_n ls t := by
  refine talk_induction (P := Remembers config.agreement_n) ?_ ?_ ?_ ?_ hr
  · exact ⟨rfl, (List.rtake_nil _).symm, rfl, rfl, rfl, rfl⟩
  · exact fun ls t hyp hp => hp.hear hyp
  · exact fun ls t a ha hp => hp.quiet ha
  · intro ls t hyp now stable take reason hp _ _ _
    exact ⟨hp.n_eq, hp.window, hp.last_hyp, hp.last_hyp_wall, hp.surface, hp.first_seen⟩

namespace PhraseChunker

theorem feed_ends (c : PhraseChunker) (hyp : Hypothesis) (hmax : 1 ≤ c.config.max_words) :
    ∃ r, c.feed hyp = some r := by
  unfold feed
  simp only
  split
  · exact emitAll_ends _ _ _ _ hmax
  · exact ⟨_, rfl⟩

omit [Unicode] in
theorem tick_ends (c : PhraseChunker) (now : ℚ) (hmax : 1 ≤ c.config.max_words) :
    ∃ r, c.tick now = some r := by
  unfold tick
  split
  · split
    · exact ⟨_, rfl⟩
    · exact emitAll_ends _ _ _ _ hmax
  · exact ⟨_, rfl⟩

omit [Unicode] in
theorem flush_ends (c : PhraseChunker) (hmax : 1 ≤ c.config.max_words) :
    ∃ r, c.flush = some r := by
  unfold flush
  split
  · exact ⟨_, rfl⟩
  · exact emitAll_ends _ _ _ _ hmax

/-- With a positive `max_words`, every call returns. -/
theorem call_ends (c : PhraseChunker) (a : Call) (hmax : 1 ≤ c.config.max_words) :
    ∃ r, c.call a = some r := by
  cases a with
  | feed hyp => exact c.feed_ends hyp hmax
  | tick now => exact c.tick_ends now hmax
  | flush => exact c.flush_ends hmax

end PhraseChunker

/-- With a positive `max_words`, every list of calls is a history. -/
theorem talks_total (config : ChunkerConfig) (h : 1 ≤ config.agreement_n)
    (hmax : 1 ≤ config.max_words) (ls : List Call) : ∃ t, (talks config h).run ls = some t := by
  induction ls using List.reverseRecOn with
  | nil => exact ⟨_, rfl⟩
  | append_singleton ls a ih =>
    obtain ⟨t, ht⟩ := ih
    obtain ⟨⟨c, out⟩, hc⟩ := t.chunker.call_ends a (by rw [(talks_config ht).1]; exact hmax)
    exact ⟨⟨c, t.emitted ++ out⟩,
      (talks config h).run_snoc_some.mpr ⟨t, ht, talks_step.mpr ⟨out, hc, rfl⟩⟩⟩

end lad_translate.phrase_chunker
