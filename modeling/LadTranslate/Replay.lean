-- The replay of the chunker (tools/chunker_replay.py): a backend that revises
-- its last words is simulated, the chunker hears it, and the committed words
-- are held against the truth. The backend never hears more words than were
-- spoken by then, so no phrase is out before its lag.
import LadTranslate.Spans
import LadTranslate.Emissions
import LadTranslate.OrderedDicts
import LadTranslate.Percentiles

open machines ordered_dicts

namespace lad_translate.chunker_replay

open phrase_chunker

/-! ## The simulated backend -/

/-- How a streaming backend behaves, as far as the chunker cares. -/
structure BackendProfile where
  name : String := "deepgram-class"
  /-- Wall seconds between interim emissions. -/
  interval : ℚ := 15 / 100
  /-- Wall delay between audio being spoken and appearing in a hypothesis. -/
  emit_lag : ℚ := 25 / 100
  /-- Trailing words the backend may still revise. -/
  unstable_tail : ℤ := 3
  /-- Chance a word in the unstable tail is currently wrong. -/
  error_rate : ℚ := 25 / 100
  words_per_second : ℚ := 28 / 10

def WHISPER_STREAMING : BackendProfile where
  name := "whisper-streaming-class"
  interval := 1 / 2
  emit_lag := 12 / 10
  unstable_tail := 6
  error_rate := 35 / 100

/-- A generator of `random`: what a draw gives, and the state after it. -/
structure Rng where
  State : Type
  seed : ℤ → State
  random : State → ℚ × State
  randrange : Nat → Nat → State → Nat × State
  choice : List Char → State → Char × State
  random_nonneg : ∀ s, 0 ≤ (random s).1
  choice_mem : ∀ seq s, seq ≠ [] → (choice seq s).1 ∈ seq

section

variable (rng : Rng)

/-- `_corrupt`: mangle a word the way a backend mis-hears one, keeping
punctuation. -/
def corrupt (word : String) (s : rng.State) : String × rng.State :=
  let head := word.toList.rdropWhile (· ∈ ".,;:!?".toList)
  let tail := word.toList.drop head.length
  if head.length < 3 then (word, s)
  else
    let (cut, s) := rng.randrange 1 head.length s
    let (c, s) := rng.choice "aeiourstn".toList s
    (String.ofList (head.take cut ++ [c] ++ head.drop (cut + 1) ++ tail), s)

variable (profile : BackendProfile)

/-- The words of the unstable tail, drawn once more. -/
def redraw : List String → rng.State → List String × rng.State
  | [], s => ([], s)
  | word :: words, s =>
    let (r, s) := rng.random s
    let (word, s) := if r < profile.error_rate then corrupt rng word s else (word, s)
    let (words, s) := redraw words s
    (word :: words, s)

/-- How many words the backend has heard by now. -/
def heardBy (wall : ℚ) : Nat :=
  ⌊max 0 ((wall - profile.emit_lag) * profile.words_per_second)⌋.toNat

variable (truth : List String)

/-- The hypothesis after `n` words. -/
def emission (n : Nat) (wall : ℚ) (seq : Nat) (s : rng.State) : Hypothesis × rng.State :=
  let words := truth.take n
  let tail_start := (max 0 ((n : ℤ) - profile.unstable_tail)).toNat
  let (tail, s) := redraw rng profile (words.drop tail_start) s
  ({ text := joinTokens (words.take tail_start ++ tail)
     is_final := decide (n ≥ truth.length)
     t_audio_start := 0
     t_audio_end := n / profile.words_per_second
     t_wall := wall
     seq }, s)

/-- The loop of `simulate`. Without fuel the result is `none`. -/
def simulateLoop : Nat → ℚ → Nat → rng.State → Option (List Hypothesis)
  | 0, _, _, _ => none
  | fuel + 1, wall, seq, s =>
    let n := heardBy profile wall
    if n ≤ 0 then simulateLoop fuel (wall + profile.interval) seq s
    else
      let (hyp, s) := emission rng profile truth (min n truth.length) wall seq s
      if hyp.is_final then some [hyp]
      else (simulateLoop fuel (wall + profile.interval) (seq + 1) s).map (hyp :: ·)

end

/-- A hypothesis stream, and the ground truth token list. -/
def simulate (rng : Rng) (text : String) (profile : BackendProfile) (seed : ℤ) (fuel : Nat) :
    Option (List Hypothesis × List String) :=
  let truth := tokenise text
  (simulateLoop rng profile truth fuel 0 0 (rng.seed seed)).map fun hyps => (hyps, truth)

/-! ## The measurement -/

structure Result where
  label : String
  chunks : Nat
  mean_words : ℚ
  p50_commit_latency : ℚ
  p95_commit_latency : ℚ
  max_commit_latency : ℚ
  wrong_word_rate : ℚ
  reasons : OrderedDict String Nat

/-- The tool's own copy of `percentile`. -/
def percentile (values : List ℚ) (pct : ℚ) : ℚ := latency.percentile values pct

/-- The commit latency of a chunk. -/
def commitLatency (c : PhraseChunk) : ℚ := max 0 (c.t_wall_committed - c.t_audio_end)

/-- `" ".join(c.text for c in chunks).split()`. -/
def committed (chunks : List PhraseChunk) : List String :=
  tokenise (joinTokens (chunks.map (·.text)))

/-- The places at which two lists differ, up to the end of the shorter one. -/
def mismatches (xs ys : List String) : Nat := (xs.zip ys).countP fun (a, b) => a ≠ b

/-- The result that the chunks of a replay give. -/
def measure (chunks : List PhraseChunk) (truth : List String) (label : String) : Result :=
  let latencies := chunks.map commitLatency
  let wrong := mismatches (committed chunks) truth +
    ((committed chunks).length - truth.length : ℤ).natAbs
  { label
    chunks := chunks.length
    mean_words :=
      if chunks ≠ [] then (chunks.map fun c => (c.word_count : ℚ)).sum / chunks.length else 0
    p50_commit_latency := percentile latencies (50 / 100)
    p95_commit_latency := percentile latencies (95 / 100)
    max_commit_latency := latencies.tail.foldl max (latencies.headD 0)
    wrong_word_rate := if truth ≠ [] then (wrong : ℚ) / truth.length else 0
    reasons := OrderedDict.tally (chunks.map (·.reason.value)) }

section

variable [Unicode]

/-- One turn of the loop over the hypotheses. -/
def hearOne (p : PhraseChunker × List PhraseChunk) (hyp : Hypothesis) :
    Option (PhraseChunker × List PhraseChunk) :=
  (p.1.feed hyp).map fun (chunker, out) => (chunker, p.2 ++ out)

/-- Every hypothesis fed, and the chunker flushed. -/
def replay (chunker : PhraseChunker) (hyps : List Hypothesis) : Option (List PhraseChunk) := do
  let (chunker, chunks) ← hyps.foldlM hearOne (chunker, [])
  let (_, out) ← chunker.flush
  return chunks ++ out

/-- The constructor of the chunker may refuse the configuration. A drain that
never ends gives `none`. -/
def evaluate (hyps : List Hypothesis) (truth : List String) (config : ChunkerConfig)
    (label : String) : Except String (Option (Result × List PhraseChunk)) := do
  let chunker ← PhraseChunker.new config
  return (replay chunker hyps).map fun chunks => (measure chunks truth label, chunks)

/-! ## What the backend emits -/

section

omit [Unicode]

variable {rng : Rng} {profile : BackendProfile} {truth : List String}

theorem corrupt_isToken {word : String} (hw : IsToken word) (s : rng.State) :
    IsToken (corrupt rng word s).1 := by
  unfold corrupt
  dsimp only
  split
  · exact hw
  · have hchoice := rng.choice_mem "aeiourstn".toList (rng.randrange 1
      (word.toList.rdropWhile (· ∈ ".,;:!?".toList)).length s).2 (by decide)
    have hhead : (word.toList.rdropWhile (· ∈ ".,;:!?".toList)).Sublist word.toList :=
      (List.rdropWhile_prefix _ _).sublist
    constructor
    · simp
    · intro x hx
      simp only [String.toList_ofList, List.mem_append, List.mem_singleton] at hx
      rcases hx with ((hx | rfl) | hx) | hx
      · exact hw.2 x (hhead.subset (List.mem_of_mem_take hx))
      · exact (show ∀ c ∈ "aeiourstn".toList, isSpace c = false by simp [isSpace]) _ hchoice
      · exact hw.2 x (hhead.subset (List.mem_of_mem_drop hx))
      · exact hw.2 x (List.mem_of_mem_drop hx)

theorem redraw_length (words : List String) (s : rng.State) :
    (redraw rng profile words s).1.length = words.length := by
  induction words generalizing s with
  | nil => rfl
  | cons word words ih =>
    simp only [redraw, List.length_cons, ih]

theorem redraw_isToken {words : List String} (h : ∀ w ∈ words, IsToken w) (s : rng.State) :
    ∀ w ∈ (redraw rng profile words s).1, IsToken w := by
  induction words generalizing s with
  | nil => simp [redraw]
  | cons word words ih =>
    obtain ⟨hword, hwords⟩ := List.forall_mem_cons.mp h
    simp only [redraw, List.forall_mem_cons]
    refine ⟨?_, ih hwords _⟩
    split
    · exact corrupt_isToken hword _
    · exact hword

/-- Without a chance of an error, every word is drawn as it was spoken. -/
theorem redraw_faultless (herror : profile.error_rate ≤ 0) (words : List String) (s : rng.State) :
    (redraw rng profile words s).1 = words := by
  induction words generalizing s with
  | nil => rfl
  | cons word words ih =>
    have hdraw : ¬ (rng.random s).1 < profile.error_rate :=
      not_lt.mpr (herror.trans (rng.random_nonneg s))
    simp only [redraw, if_neg hdraw, ih]

theorem heardBy_mono (hrate : 0 < profile.words_per_second) : Monotone (heardBy profile) := by
  intro v w hvw
  apply Int.toNat_le_toNat
  apply Int.floor_le_floor
  gcongr

theorem heardBy_le {wall : ℚ} (hpos : 0 < heardBy profile wall) :
    (heardBy profile wall : ℚ) ≤ (wall - profile.emit_lag) * profile.words_per_second := by
  unfold heardBy at hpos ⊢
  rw [Int.floor_toNat] at hpos ⊢
  have hle := Nat.floor_le (le_max_left 0 ((wall - profile.emit_lag) * profile.words_per_second))
  rcases max_choice 0 ((wall - profile.emit_lag) * profile.words_per_second) with h0 | h0
  · rw [h0, Nat.floor_zero] at hpos
    exact absurd hpos (lt_irrefl 0)
  · rw [h0] at hle ⊢
    exact hle

/-- What the backend says of the first `n` words: it says as many, and those
outside of its unstable tail are right. -/
structure Heard (profile : BackendProfile) (truth : List String) (n : Nat) (hyp : Hypothesis) :
    Prop where
  count : (tokenise hyp.text).length = n
  locked : ∀ i : Nat, (i : ℤ) < n - profile.unstable_tail →
    (tokenise hyp.text)[i]? = (truth.take n)[i]?
  faultless : profile.error_rate ≤ 0 → tokenise hyp.text = truth.take n
  within : n ≤ truth.length
  is_final : hyp.is_final = decide (truth.length ≤ n)
  start : hyp.t_audio_start = 0
  stop : hyp.t_audio_end = n / profile.words_per_second
  words : hyp.words = none
  spoken : (n : ℚ) ≤ (hyp.t_wall - profile.emit_lag) * profile.words_per_second

theorem emission_heard (htruth : ∀ w ∈ truth, IsToken w) {n : Nat} (hn : n ≤ truth.length)
    {wall : ℚ} (hspoken : (n : ℚ) ≤ (wall - profile.emit_lag) * profile.words_per_second)
    (seq : Nat) (s : rng.State) :
    Heard profile truth n (emission rng profile truth n wall seq s).1 := by
  have htokens : ∀ w ∈ truth.take n, IsToken w := fun w hw => htruth w (List.mem_of_mem_take hw)
  have htext : tokenise (emission rng profile truth n wall seq s).1.text =
      (truth.take n).take (max 0 ((n : ℤ) - profile.unstable_tail)).toNat ++
        (redraw rng profile
          ((truth.take n).drop (max 0 ((n : ℤ) - profile.unstable_tail)).toNat) s).1 := by
    apply tokenise_joinTokens
    intro w hw
    rcases List.mem_append.mp hw with hw | hw
    · exact htokens w (List.mem_of_mem_take hw)
    · exact redraw_isToken (fun v hv => htokens v (List.mem_of_mem_drop hv)) s w hw
  refine ⟨?_, ?_, ?_, hn, rfl, rfl, rfl, rfl, hspoken⟩
  · rw [htext, List.length_append, redraw_length, List.length_take, List.length_drop,
      List.length_take]
    omega
  · intro i hi
    have hlt : i < (max 0 ((n : ℤ) - profile.unstable_tail)).toNat := by omega
    by_cases hin : i < (truth.take n).length
    · rw [htext, List.getElem?_append_left (by rw [List.length_take]; omega),
        List.getElem?_take_of_lt hlt]
    · rw [htext, List.take_of_length_le (i := (max 0 ((n : ℤ) - profile.unstable_tail)).toNat)
        (by omega), List.drop_eq_nil_of_le (by omega)]
      simp [redraw]
  · intro herror
    rw [htext, redraw_faultless herror, List.take_append_drop]

/-- The stream of a backend: one count after another, none smaller than the one
before it, and the last one is the whole truth. -/
structure Stream (profile : BackendProfile) (truth : List String) (hyps : List Hypothesis) :
    Prop where
  heard : ∀ hyp ∈ hyps, ∃ n, Heard profile truth n hyp
  grows : hyps.Pairwise fun x y => (tokenise x.text).length ≤ (tokenise y.text).length
  ends : ∃ older hyp, hyps = older ++ [hyp] ∧ Heard profile truth truth.length hyp

theorem simulateLoop_stream (htruth : ∀ w ∈ truth, IsToken w) (hinterval : 0 ≤ profile.interval)
    (hrate : 0 < profile.words_per_second) {fuel seq : Nat} {wall : ℚ} {s : rng.State}
    {hyps : List Hypothesis} (h : simulateLoop rng profile truth fuel wall seq s = some hyps) :
    Stream profile truth hyps ∧
      ∀ hyp ∈ hyps, min (heardBy profile wall) truth.length ≤ (tokenise hyp.text).length := by
  induction fuel generalizing wall seq s hyps with
  | zero => simp [simulateLoop] at h
  | succ fuel ih =>
    have hlater : heardBy profile wall ≤ heardBy profile (wall + profile.interval) :=
      heardBy_mono hrate (le_add_of_nonneg_right hinterval)
    simp only [simulateLoop] at h
    split at h
    · obtain ⟨hstream, hcounts⟩ := ih h
      refine ⟨hstream, fun hyp hmem => le_trans ?_ (hcounts hyp hmem)⟩
      exact min_le_min_right _ hlater
    · rename_i hn
      have hspoken := heardBy_le (not_le.mp hn)
      have hcount : ((min (heardBy profile wall) truth.length : Nat) : ℚ) ≤
          (wall - profile.emit_lag) * profile.words_per_second :=
        le_trans (by exact_mod_cast min_le_left _ _) hspoken
      have hheard := emission_heard htruth (min_le_right (heardBy profile wall) truth.length)
        hcount seq s
      split at h
      · rename_i hfinal
        obtain rfl := Option.some.inj h
        rw [hheard.is_final, decide_eq_true_iff] at hfinal
        have hall : min (heardBy profile wall) truth.length = truth.length :=
          le_antisymm (min_le_right _ _) hfinal
        refine ⟨⟨?_, List.pairwise_singleton _ _, ?_⟩, ?_⟩
        · rw [List.forall_mem_singleton]
          exact ⟨_, hheard⟩
        · refine ⟨[], _, rfl, ?_⟩
          rw [hall] at hheard ⊢
          exact hheard
        · rw [List.forall_mem_singleton, hheard.count]
      · obtain ⟨rest, hrest, rfl⟩ := Option.map_eq_some_iff.mp h
        obtain ⟨⟨hall, hgrows, older, last, rfl, hlast⟩, hcounts⟩ := ih hrest
        have hfirst : ∀ hyp ∈ older ++ [last],
            min (heardBy profile wall) truth.length ≤ (tokenise hyp.text).length :=
          fun hyp hmem => (min_le_min_right _ hlater).trans (hcounts hyp hmem)
        refine ⟨⟨?_, ?_, _, last, (List.cons_append ..).symm, hlast⟩, ?_⟩
        · exact List.forall_mem_cons.mpr ⟨⟨_, hheard⟩, hall⟩
        · refine List.pairwise_cons.mpr ⟨?_, hgrows⟩
          rw [hheard.count]
          exact hfirst
        · exact List.forall_mem_cons.mpr ⟨hheard.count.ge, hfirst⟩

/-- From a wall time on, the whole text was heard some intervals later. -/
theorem simulateLoop_ends {turns : Nat} {wall : ℚ}
    (hturns : (truth.length + 1 : ℚ) ≤
      (wall + turns * profile.interval - profile.emit_lag) * profile.words_per_second)
    (seq : Nat) (s : rng.State) :
    ∃ hyps, ∀ fuel, turns < fuel → simulateLoop rng profile truth fuel wall seq s = some hyps := by
  induction turns generalizing wall seq s with
  | zero =>
    have hle : truth.length + 1 ≤ heardBy profile wall := by
      rw [heardBy, Int.floor_toNat]
      apply Nat.le_floor
      rw [Nat.cast_zero, zero_mul, add_zero] at hturns
      push_cast
      exact hturns.trans (le_max_right _ _)
    refine ⟨[(emission rng profile truth truth.length wall seq s).1], fun fuel hfuel => ?_⟩
    obtain ⟨fuel, rfl⟩ := Nat.exists_eq_add_of_lt hfuel
    have hmin : min (heardBy profile wall) truth.length = truth.length := by omega
    have hfinal : (emission rng profile truth truth.length wall seq s).1.is_final = true := by
      simp [emission]
    rw [Nat.zero_add]
    simp only [simulateLoop, hmin, hfinal, if_true]
    rw [if_neg (by omega)]
  | succ turns ih =>
    have hnext : (truth.length + 1 : ℚ) ≤
        (wall + profile.interval + turns * profile.interval - profile.emit_lag) *
          profile.words_per_second := by
      refine hturns.trans (le_of_eq ?_)
      push_cast
      ring
    obtain ⟨quiet, hquiet⟩ := ih hnext seq s
    obtain ⟨rest, hrest⟩ := ih hnext (seq + 1)
      (emission rng profile truth (min (heardBy profile wall) truth.length) wall seq s).2
    -- one turn, and the loop goes on from the next wall time or is done
    have hone : ∀ fuel, turns + 1 < fuel → ∃ more, fuel = more + 1 ∧ turns < more := by
      intro fuel hfuel
      exact ⟨fuel - 1, by omega, by omega⟩
    by_cases hn : heardBy profile wall ≤ 0
    · refine ⟨quiet, fun fuel hfuel => ?_⟩
      obtain ⟨more, rfl, hmore⟩ := hone fuel hfuel
      simp only [simulateLoop, if_pos hn]
      exact hquiet more hmore
    · by_cases hfinal : (emission rng profile truth (min (heardBy profile wall) truth.length) wall
        seq s).1.is_final = true
      · refine ⟨[(emission rng profile truth (min (heardBy profile wall) truth.length) wall
          seq s).1], fun fuel hfuel => ?_⟩
        obtain ⟨more, rfl, -⟩ := hone fuel hfuel
        simp only [simulateLoop, if_neg hn, hfinal, if_true]
      · refine ⟨(emission rng profile truth (min (heardBy profile wall) truth.length) wall
          seq s).1 :: rest, fun fuel hfuel => ?_⟩
        obtain ⟨more, rfl, hmore⟩ := hone fuel hfuel
        simp only [simulateLoop, if_neg hn, hfinal, Bool.false_eq_true, if_false,
          hrest more hmore, Option.map_some]

/-- With time that goes on and words that come, the simulation ends. -/
theorem simulate_ends (rng : Rng) (text : String) {profile : BackendProfile} (seed : ℤ)
    (hinterval : 0 < profile.interval) (hrate : 0 < profile.words_per_second) :
    ∃ hyps, (∃ enough, ∀ fuel, enough < fuel →
      simulate rng text profile seed fuel = some (hyps, tokenise text)) ∧
      Stream profile (tokenise text) hyps := by
  obtain ⟨turns, hturns⟩ := exists_nat_ge
    ((((tokenise text).length + 1) / profile.words_per_second + profile.emit_lag) /
      profile.interval)
  rw [div_le_iff₀ hinterval, ← le_sub_iff_add_le, div_le_iff₀ hrate] at hturns
  have hreach : ((tokenise text).length + 1 : ℚ) ≤
      (0 + turns * profile.interval - profile.emit_lag) * profile.words_per_second := by
    rw [zero_add]
    exact hturns
  obtain ⟨hyps, hends⟩ := simulateLoop_ends hreach 0 (rng.seed seed)
  refine ⟨hyps, ⟨turns, fun fuel hfuel => ?_⟩, ?_⟩
  · rw [simulate, hends fuel hfuel, Option.map_some]
  · exact (simulateLoop_stream (fun w hw => isToken_of_mem hw) hinterval.le hrate
      (hends _ (Nat.lt_succ_self turns))).1

end

/-! ## What the chunker makes of it -/

section

variable {config : ChunkerConfig} {h : 1 ≤ config.agreement_n} {ls : List Call} {t : Talk}

/-- Each committed word stands at its own place in a hypothesis that was heard.
Hypotheses that get no shorter leave room for every committed word. -/
structure Replayed (n : Nat) (ls : List Call) (t : Talk) : Prop where
  faithful : Faithful t
  remembers : Remembers n ls t
  heard : ∀ (i : Nat) (w : String), t.words[i]? = some w →
    ∃ hyp ∈ ls.filterMap Call.fed, (tokenise hyp.text)[i]? = some w
  within : ((ls.filterMap Call.fed).Pairwise fun x y =>
      (tokenise x.text).length ≤ (tokenise y.text).length) →
    t.chunker.tracker.committed ≤ t.chunker.tracker.latest_surface.length

/-- The newest hypothesis, while there is something to say. -/
theorem Replayed.newest {n : Nat} (hp : Replayed n ls t) {w : String}
    (hw : w ∈ t.chunker.tracker.latest_surface) :
    ∃ hyp ∈ ls.filterMap Call.fed, t.chunker.tracker.latest_surface = tokenise hyp.text := by
  rw [hp.remembers.surface] at hw ⊢
  cases hl : lastFed ls with
  | none => simp [hl] at hw
  | some hyp => exact ⟨hyp, List.mem_of_getLast? hl, rfl⟩

theorem Replayed.hear {n : Nat} (hp : Replayed n ls t) (hyp : Hypothesis) :
    Replayed n (ls ++ [.feed hyp]) (t.hear hyp) := by
  have hfed : (ls ++ [Call.feed hyp]).filterMap Call.fed = ls.filterMap Call.fed ++ [hyp] := by
    simp [Call.fed]
  refine ⟨faithful_hear t hyp hp.faithful, hp.remembers.hear hyp, ?_, ?_⟩
  · intro i w hw
    obtain ⟨heard, hmem, hat⟩ := hp.heard i w hw
    exact ⟨heard, by rw [hfed]; exact List.mem_append_left _ hmem, hat⟩
  · intro hgrows
    rw [hfed] at hgrows
    obtain ⟨hbefore, -, hnew⟩ := List.pairwise_append.mp hgrows
    rw [Talk.hear_tracker, StabilityTracker.add_committed, StabilityTracker.add_latest_surface]
    refine (hp.within hbefore).trans ?_
    rw [hp.remembers.surface]
    cases hl : lastFed ls with
    | none => exact Nat.zero_le _
    | some last => exact hnew last (List.mem_of_getLast? hl) hyp List.mem_cons_self

theorem Replayed.say {n : Nat} (hp : Replayed n ls t) (hyp : Hypothesis) (now : Option ℚ)
    {stable : StablePrefix} {take : Nat} (reason : CommitReason)
    (hs : t.chunker.tracker.stablePrefix = some stable) (ht : take ≤ stable.tokens.length) :
    Replayed n ls (t.say hyp stable take reason now) := by
  have htook := words_of_commit hyp reason now hp.faithful.tokens hs ht
  have hm := hp.remembers
  refine ⟨faithful_say t hyp stable take reason now hp.faithful hs ht,
    ⟨hm.n_eq, hm.window, hm.last_hyp, hm.last_hyp_wall, hm.surface, hm.first_seen⟩, ?_, ?_⟩
  · intro i w hw
    rw [Talk.say_words, htook] at hw
    by_cases hi : i < t.words.length
    · rw [List.getElem?_append_left hi] at hw
      exact hp.heard i w hw
    · -- the word is one that the newest hypothesis has at this place
      rw [List.getElem?_append_right (by omega), List.getElem?_take] at hw
      split at hw
      · rw [List.getElem?_drop, hp.faithful.count] at hw
        rw [hp.faithful.count] at hi
        rw [Nat.add_sub_cancel' (by omega)] at hw
        obtain ⟨newest, hmem, hsurface⟩ := hp.newest (List.mem_of_getElem? hw)
        exact ⟨newest, hmem, hsurface ▸ hw⟩
      · cases hw
  · intro _
    obtain ⟨hne, rfl⟩ := StabilityTracker.stablePrefix_eq_some.mp hs
    have hpos := List.length_pos_iff.mpr hne
    have hlen := StabilityTracker.outstanding_length t.chunker.tracker
    rw [Talk.say_tracker]
    simp only at ht ⊢
    omega

theorem replayed (hr : (talks config h).run ls = some t) : Replayed config.agreement_n ls t := by
  refine talk_induction (P := Replayed config.agreement_n) ?_ ?_ ?_ ?_ hr
  · have hm : Remembers config.agreement_n [] _ := talks_remember (h := h) rfl
    refine ⟨faithful_fresh config h, hm, ?_, ?_⟩
    · simp [Talk.words]
    · exact fun _ => Nat.zero_le _
  · exact fun ls t hyp hp => hp.hear hyp
  · intro ls t a ha hp
    have hfed : (ls ++ [a]).filterMap Call.fed = ls.filterMap Call.fed := by simp [fed_of_quiet ha]
    exact ⟨hp.faithful, hp.remembers.quiet ha, hfed ▸ hp.heard, hfed ▸ hp.within⟩
  · exact fun ls t hyp now stable take reason hp _ hs ht => hp.say hyp now reason hs ht

/-- A chunk was committed when a hypothesis came, and ends inside it. -/
def CutFrom (hyp : Hypothesis) (chunk : PhraseChunk) : Prop :=
  chunk.t_wall_committed = hyp.t_wall ∧ 0 < (tokenise hyp.text).length ∧
    ∃ k ≤ (tokenise hyp.text).length, chunk.t_audio_end = PhraseChunker.wordEndTime hyp k

omit [Unicode] in
theorem cutFrom_of_commits {hyp : Hypothesis} {c c' : PhraseChunker} {out : List PhraseChunk}
    (hc : PhraseChunker.Commits hyp none c out c')
    (hsurface : c.tracker.latest_surface = tokenise hyp.text) :
    ∀ chunk ∈ out, CutFrom hyp chunk := by
  induction hc with
  | nil c => simp
  | @cons c c' stable take reason out hs ht rest ih =>
    obtain ⟨hne, rfl⟩ := StabilityTracker.stablePrefix_eq_some.mp hs
    have hpos := List.length_pos_iff.mpr hne
    have hlen := StabilityTracker.outstanding_length c.tracker
    rw [hsurface] at hlen
    simp only at ht
    refine List.forall_mem_cons.mpr ⟨⟨rfl, by omega, c.tracker.committed + take, by omega, rfl⟩, ?_⟩
    exact ih hsurface

/-- Without a tick, every chunk was committed when its hypothesis came. -/
theorem every_chunk_is_cut (hr : (talks config h).run ls = some t)
    (hquiet : ∀ now, Call.tick now ∉ ls) :
    ∀ chunk ∈ t.emitted, ∃ hyp ∈ ls.filterMap Call.fed, CutFrom hyp chunk := by
  refine (talks config h).run_induction
    (P := fun ls t => (∀ now, Call.tick now ∉ ls) →
      ∀ chunk ∈ t.emitted, ∃ hyp ∈ ls.filterMap Call.fed, CutFrom hyp chunk) ?_ ?_ hr hquiet
  · exact fun _ => by simp [talks]
  intro ls s a t hs ih hstep hquiet
  have hbefore := ih fun now hmem => hquiet now (List.mem_append_left _ hmem)
  obtain ⟨out, hcall, hem⟩ := talks_step.mp hstep
  intro chunk hchunk
  rw [hem] at hchunk
  rw [List.filterMap_append]
  rcases List.mem_append.mp hchunk with hold | hnew
  · obtain ⟨hyp, hmem, hcut⟩ := hbefore chunk hold
    exact ⟨hyp, List.mem_append_left _ hmem, hcut⟩
  · cases a with
    | tick now => exact absurd (by simp) (hquiet now)
    | feed hyp =>
      refine ⟨hyp, by simp [Call.fed], ?_⟩
      exact cutFrom_of_commits (PhraseChunker.feed_commits hcall)
        (StabilityTracker.add_latest_surface _ _) chunk hnew
    | flush =>
      have hm := talks_remember hs
      rcases PhraseChunker.flush_commits hcall with ⟨-, rfl⟩ | ⟨hyp, hl, hc⟩
      · cases hnew
      · rw [hm.last_hyp] at hl
        refine ⟨hyp, List.mem_append_left _ (List.mem_of_getLast? hl), ?_⟩
        refine cutFrom_of_commits hc ?_ chunk hnew
        rw [hm.surface, hl]
        rfl

/-- The calls of a replay. -/
def calls (hyps : List Hypothesis) : List Call := hyps.map .feed ++ [.flush]

omit [Unicode] in
@[simp] theorem fed_calls (hyps : List Hypothesis) : (calls hyps).filterMap Call.fed = hyps := by
  simp [calls, List.filterMap_append, List.filterMap_map, Function.comp_def, Call.fed]

theorem foldlM_hearOne {hyps : List Hypothesis} {s : Talk}
    (hr : (talks config h).runFrom s (hyps.map .feed) = some t) :
    hyps.foldlM hearOne (s.chunker, s.emitted) = some (t.chunker, t.emitted) := by
  induction hyps generalizing s with
  | nil =>
    obtain rfl := Option.some.inj hr
    rfl
  | cons hyp hyps ih =>
    rw [List.map_cons, Machine.runFrom_cons, Option.bind_eq_some_iff] at hr
    obtain ⟨u, hu, hrest⟩ := hr
    obtain ⟨out, hcall, hem⟩ := talks_step.mp hu
    have hfeed : s.chunker.feed hyp = some (u.chunker, out) := hcall
    have hturn : hearOne (s.chunker, s.emitted) hyp = some (u.chunker, u.emitted) := by
      rw [hearOne, hfeed, Option.map_some, hem]
    rw [List.foldlM_cons, hturn]
    exact ih hrest

/-- A replay is a talk: its hypotheses fed in order, and a flush. -/
theorem replay_eq {hyps : List Hypothesis} (hr : (talks config h).run (calls hyps) = some t) :
    replay (PhraseChunker.fresh config h) hyps = some t.emitted := by
  obtain ⟨s, hs, hstep⟩ := (talks config h).run_snoc_some.mp hr
  obtain ⟨out, hcall, hem⟩ := talks_step.mp hstep
  have hflush : s.chunker.flush = some (t.chunker, out) := hcall
  have hfeeds : hyps.foldlM hearOne (PhraseChunker.fresh config h, []) =
      some (s.chunker, s.emitted) := foldlM_hearOne hs
  rw [replay, hfeeds, hem]
  simp [hflush]

theorem evaluate_eq {hyps : List Hypothesis} (truth : List String) (label : String)
    (hr : (talks config h).run (calls hyps) = some t) :
    evaluate hyps truth config label = .ok (some (measure t.emitted truth label, t.emitted)) := by
  have hchunks := replay_eq hr
  rw [evaluate, PhraseChunker.new_eq config h]
  simp [bind, Except.bind, pure, Except.pure, hchunks]

omit [Unicode] in
theorem committed_eq (chunks : List PhraseChunk) :
    committed chunks = chunks.flatMap PhraseChunk.words := by
  rw [committed, tokenise_joined, List.flatMap_map]
  rfl

omit [Unicode] in
theorem mismatches_eq_zero (xs : List String) : mismatches xs xs = 0 := by
  rw [mismatches, List.countP_eq_zero]
  intro p hp
  rw [List.zip_eq_zipWith, List.zipWith_self, List.mem_map] at hp
  obtain ⟨x, -, rfl⟩ := hp
  simp

variable {profile : BackendProfile} {truth : List String} {hyps : List Hypothesis}

/-- A replay of the stream of a backend: it ends, and as many words are
committed as were spoken. -/
theorem replay_stream (hmax : 1 ≤ config.max_words) (hstream : Stream profile truth hyps) :
    ∃ t, (talks config h).run (calls hyps) = some t ∧ t.words.length = truth.length := by
  obtain ⟨t, ht⟩ := talks_total config h hmax (calls hyps)
  refine ⟨t, ht, ?_⟩
  have hp := replayed ht
  have hwithin := hp.within (by rw [fed_calls]; exact hstream.grows)
  obtain ⟨older, last, rfl, hlast⟩ := hstream.ends
  -- the final commits every word, and the flush takes none back
  obtain ⟨s, hs, hstep⟩ := (talks config h).run_snoc_some.mp ht
  rw [List.map_append] at hs
  obtain ⟨r, -, hfinal⟩ := (talks config h).run_snoc_some.mp hs
  obtain ⟨_, hcall, -⟩ := talks_step.mp hfinal
  have hdone := (feed_final_drains (by rw [hlast.is_final]; simp) hcall).2
  rw [normalised, List.length_map, hlast.count] at hdone
  have hkept : s.chunker.tracker.committed ≤ t.chunker.tracker.committed := by
    obtain ⟨out, hflush, -⟩ := talks_step.mp hstep
    rcases PhraseChunker.flush_commits hflush with ⟨hsame, -⟩ | ⟨hyp, -, hc⟩
    · rw [hsame]
    · rw [hc.counts]
      exact Nat.le_add_right _ _
  have hsurface : t.chunker.tracker.latest_surface = tokenise last.text := by
    have hl : lastFed (calls (older ++ [last])) = some last := by
      rw [lastFed, fed_calls, List.getLast?_append_cons, List.getLast?_singleton]
    rw [hp.remembers.surface, hl]
    rfl
  rw [hsurface, hlast.count] at hwithin
  rw [hp.faithful.count]
  omega

end

/-- A replay of a simulated backend ends. It commits one word for each word
that was spoken, so that the rate counts the places with a wrong word. Such a
word was said by a hypothesis that had it in its unstable tail. Without a tail
or without errors the rate is 0. -/
theorem a_replay_holds_each_word_against_the_truth (rng : Rng) (text : String)
    (profile : BackendProfile) (seed : ℤ) (config : ChunkerConfig) (label : String)
    (hinterval : 0 < profile.interval) (hrate : 0 < profile.words_per_second)
    (h : 1 ≤ config.agreement_n) (hmax : 1 ≤ config.max_words) :
    ∃ hyps result chunks,
      (∃ enough, ∀ fuel, enough < fuel →
        simulate rng text profile seed fuel = some (hyps, tokenise text)) ∧
      evaluate hyps (tokenise text) config label = .ok (some (result, chunks)) ∧
      (committed chunks).length = (tokenise text).length ∧
      result.wrong_word_rate =
        (mismatches (committed chunks) (tokenise text) : ℚ) / (tokenise text).length ∧
      (∀ i, (committed chunks)[i]? ≠ (tokenise text)[i]? →
        ∃ hyp ∈ hyps, (committed chunks)[i]? = (tokenise hyp.text)[i]? ∧
          i < (tokenise hyp.text).length ∧
          ((tokenise hyp.text).length : ℤ) - profile.unstable_tail ≤ i) ∧
      (profile.error_rate ≤ 0 ∨ profile.unstable_tail ≤ 0 → result.wrong_word_rate = 0) := by
  obtain ⟨hyps, hends, hstream⟩ := simulate_ends rng text seed hinterval hrate
  obtain ⟨t, ht, hlen⟩ := replay_stream (h := h) hmax hstream
  have hp := replayed ht
  have hwords : committed t.emitted = t.words := committed_eq t.emitted
  have hcount : (measure t.emitted (tokenise text) label).wrong_word_rate =
      (mismatches (committed t.emitted) (tokenise text) : ℚ) / (tokenise text).length := by
    have hsame : ((committed t.emitted).length - (tokenise text).length : ℤ).natAbs = 0 := by
      rw [hwords, hlen, sub_self, Int.natAbs_zero]
    simp only [measure, hsame, Nat.add_zero]
    split
    · rfl
    · rename_i hnil
      rw [not_not.mp hnil, List.length_nil, Nat.cast_zero, div_zero]
  have hwrong : ∀ i, (committed t.emitted)[i]? ≠ (tokenise text)[i]? →
      ∃ hyp ∈ hyps, ∃ n, Heard profile (tokenise text) n hyp ∧
        (committed t.emitted)[i]? = (tokenise hyp.text)[i]? ∧ i < n ∧
        (tokenise hyp.text)[i]? ≠ ((tokenise text).take n)[i]? := by
    intro i hne
    rw [hwords] at hne ⊢
    have hi : i < t.words.length := by
      by_contra hout
      rw [List.getElem?_eq_none (by omega), List.getElem?_eq_none (by omega)] at hne
      exact hne rfl
    obtain ⟨hyp, hmem, hat⟩ := hp.heard i _ (List.getElem?_eq_getElem hi)
    rw [fed_calls] at hmem
    obtain ⟨n, hheard⟩ := hstream.heard hyp hmem
    have hlt : i < n := hheard.count ▸ (List.getElem?_eq_some_iff.mp hat).1
    refine ⟨hyp, hmem, n, hheard, ?_, hlt, ?_⟩
    · rw [hat, List.getElem?_eq_getElem hi]
    · rw [List.getElem?_take_of_lt hlt, hat, ← List.getElem?_eq_getElem hi]
      exact hne
  refine ⟨hyps, measure t.emitted (tokenise text) label, t.emitted, hends, evaluate_eq _ _ ht,
    by rw [hwords, hlen], hcount, ?_, ?_⟩
  · intro i hne
    obtain ⟨hyp, hmem, n, hheard, hat, hlt, hbad⟩ := hwrong i hne
    refine ⟨hyp, hmem, hat, hheard.count ▸ hlt, ?_⟩
    rw [hheard.count]
    by_contra hlocked
    exact hbad (hheard.locked i (not_le.mp hlocked))
  · intro hclean
    have hall : committed t.emitted = tokenise text := by
      apply List.ext_getElem?
      intro i
      by_contra hne
      obtain ⟨hyp, -, n, hheard, -, hlt, hbad⟩ := hwrong i hne
      rcases hclean with herror | htail
      · exact hbad (by rw [hheard.faultless herror])
      · exact hbad (hheard.locked i (by omega))
    rw [hcount, hall, mismatches_eq_zero, Nat.cast_zero, zero_div]

/-- No commit latency of a simulated backend is below its emit lag, and so is no
percentile of them. -/
theorem no_phrase_is_out_before_the_lag (rng : Rng) (text : String) (profile : BackendProfile)
    (seed : ℤ) (config : ChunkerConfig) (label : String) (htext : tokenise text ≠ [])
    (hinterval : 0 < profile.interval) (hrate : 0 < profile.words_per_second)
    (h : 1 ≤ config.agreement_n) (hmax : 1 ≤ config.max_words) :
    ∃ hyps result chunks,
      (∃ enough, ∀ fuel, enough < fuel →
        simulate rng text profile seed fuel = some (hyps, tokenise text)) ∧
      evaluate hyps (tokenise text) config label = .ok (some (result, chunks)) ∧
      (∀ chunk ∈ chunks, profile.emit_lag ≤ chunk.t_wall_committed - chunk.t_audio_end) ∧
      profile.emit_lag ≤ result.p50_commit_latency ∧
      result.p50_commit_latency ≤ result.p95_commit_latency ∧
      result.p95_commit_latency ≤ result.max_commit_latency := by
  obtain ⟨hyps, hends, hstream⟩ := simulate_ends rng text seed hinterval hrate
  obtain ⟨t, ht, hlen⟩ := replay_stream (h := h) hmax hstream
  have hlag : ∀ chunk ∈ t.emitted,
      profile.emit_lag ≤ chunk.t_wall_committed - chunk.t_audio_end := by
    intro chunk hchunk
    obtain ⟨hyp, hmem, hwall, hpos, k, hk, hend⟩ := every_chunk_is_cut ht (by simp [calls])
      chunk hchunk
    rw [fed_calls] at hmem
    obtain ⟨n, hheard⟩ := hstream.heard hyp hmem
    have hstop : PhraseChunker.wordEndTime hyp k = k / profile.words_per_second := by
      have hn : (n : ℚ) ≠ 0 := by exact_mod_cast (hheard.count ▸ hpos).ne'
      have hspan : hyp.t_audio_start ≤ hyp.t_audio_end := by
        rw [hheard.start, hheard.stop]
        positivity
      rw [wordEndTime_untimed (by rw [hheard.words]; rfl) hspan hpos hk, Cut.position, Cut.seconds,
        Cut.words, hheard.start, hheard.stop, hheard.count]
      field_simp
      ring
    have hcount : (k : ℚ) ≤ (hyp.t_wall - profile.emit_lag) * profile.words_per_second := by
      have hkn : (k : ℚ) ≤ n := by exact_mod_cast hheard.count ▸ hk
      exact hkn.trans hheard.spoken
    rw [hwall, hend, hstop]
    have := (div_le_iff₀ hrate).mpr hcount
    linarith
  have hne : t.emitted.map commitLatency ≠ [] := by
    intro hnil
    rw [List.map_eq_nil_iff] at hnil
    rw [Talk.words, hnil, List.flatMap_nil, List.length_nil] at hlen
    exact htext (List.length_eq_zero_iff.mp hlen.symm)
  refine ⟨hyps, measure t.emitted (tokenise text) label, t.emitted, hends, evaluate_eq _ _ ht,
    hlag, ?_, ?_, ?_⟩
  · obtain ⟨chunk, hchunk, hleast⟩ := List.mem_map.mp (latency.percentile_zero hne).1
    calc
      profile.emit_lag ≤ commitLatency chunk := (hlag chunk hchunk).trans (le_max_right _ _)
      _ = latency.percentile (t.emitted.map commitLatency) 0 := hleast
      _ ≤ latency.percentile (t.emitted.map commitLatency) (50 / 100) :=
        latency.percentile_mono _ (by norm_num) (by norm_num)
  · exact latency.percentile_mono _ (by norm_num) (by norm_num)
  · obtain ⟨x, rest, hrest⟩ := List.exists_cons_of_ne_nil hne
    have hworst := (latency.percentile_one hne).1
    refine (latency.percentile_mono _ (by norm_num) le_rfl).trans ?_
    rw [measure, hrest]
    apply latency.le_foldl_max
    rw [hrest] at hworst
    exact (List.mem_cons.mp hworst).imp_left le_of_eq

end

/-! ## A talk about a pilot -/

open ascii

/-- A generator that draws every fourth word wrong. -/
def everyFourth : Rng where
  State := Nat
  seed s := s.toNat
  random s := ((s % 4 : Nat) / 4, s + 1)
  randrange start _ s := (start, s)
  choice seq s := (seq.headD 'a', s)
  random_nonneg s := by positivity
  choice_mem seq s hne := by
    obtain ⟨c, cs, rfl⟩ := List.exists_cons_of_ne_nil hne
    exact List.mem_cons_self

theorem a_replay_holds_each_word_of_the_pilot :
    ∃ hyps result chunks,
      (∃ enough, ∀ fuel, enough < fuel →
        simulate everyFourth "Now, the pilot. We ran it across six venues." {} 7 fuel =
          some (hyps, tokenise "Now, the pilot. We ran it across six venues.")) ∧
      evaluate hyps (tokenise "Now, the pilot. We ran it across six venues.") {} "pilot" =
        .ok (some (result, chunks)) ∧
      (committed chunks).length =
        (tokenise "Now, the pilot. We ran it across six venues.").length := by
  obtain ⟨hyps, result, chunks, hends, heval, hlen, -⟩ :=
    a_replay_holds_each_word_against_the_truth everyFourth
      "Now, the pilot. We ran it across six venues." {} 7 {} "pilot" (by norm_num) (by norm_num)
      (by decide) (by decide)
  exact ⟨hyps, result, chunks, hends, heval, hlen⟩

theorem no_phrase_of_the_pilot_is_out_before_the_lag :
    ∃ hyps result chunks,
      (∃ enough, ∀ fuel, enough < fuel →
        simulate everyFourth "Now, the pilot." WHISPER_STREAMING 7 fuel =
          some (hyps, tokenise "Now, the pilot.")) ∧
      evaluate hyps (tokenise "Now, the pilot.") {} "pilot" = .ok (some (result, chunks)) ∧
      12 / 10 ≤ result.p50_commit_latency := by
  obtain ⟨hyps, result, chunks, hends, heval, -, hlag, -⟩ :=
    no_phrase_is_out_before_the_lag everyFourth "Now, the pilot." WHISPER_STREAMING 7 {} "pilot"
      (by decide +kernel) (by norm_num [WHISPER_STREAMING]) (by norm_num [WHISPER_STREAMING])
      (by decide) (by decide)
  exact ⟨hyps, result, chunks, hends, heval, hlag⟩

end lad_translate.chunker_replay
