-- The laws of the drain: what a flush, or a tick after a silence, leaves
-- unspoken. The drain goes through the agreement window, so it speaks the
-- words of the newest hypothesis that the whole window agrees on, and it
-- leaves the others.
import LadTranslate.SpokenWords

open machines prefixes

namespace lad_translate.phrase_chunker

section

variable [Unicode]

omit [Unicode] in
/-- The call returned, and every token of the hypothesis is committed. -/
def SaidInFull (hyp : Hypothesis) (r : Option (PhraseChunker × List PhraseChunk)) : Prop :=
  ∃ c out, r = some (c, out) ∧ (tokenise hyp.text).length ≤ c.tracker.committed

/-- Nothing of the newest hypothesis is left unspoken by a flush, or by a tick
that comes `silence_commit_s` after it. -/
def DrainsAll (t : Talk) (hyp : Hypothesis) : Prop :=
  SaidInFull hyp t.chunker.flush ∧
    ∀ now, t.chunker.config.silence_commit_s ≤ now - hyp.t_wall →
      SaidInFull hyp (t.chunker.tick now)

/-- The last n entries of the history (a final counts n times) all start with
the normalised tokens of the hypothesis, and there are n of them. -/
def WindowAgrees (n : Nat) (ls : List Call) (hyp : Hypothesis) : Prop :=
  n ≤ (entries n ls).length ∧ ∀ e ∈ (entries n ls).rtake n, normalised hyp.text <+: e

/-- All of the newest hypothesis is agreed exactly when the window agrees on it. -/
theorem agreed_all_iff {n : Nat} {ls : List Call} {t : Talk} {hyp : Hypothesis}
    (hm : Remembers n ls t) (hne : tokenise hyp.text ≠ [])
    (hnew : t.chunker.tracker.window.getLast?.getD [] = normalised hyp.text) :
    (tokenise hyp.text).length ≤ t.chunker.tracker.agreedLength ↔ WindowAgrees n ls hyp := by
  have hlen : (tokenise hyp.text).length = (normalised hyp.text).length := by simp [normalised]
  have hpos := List.length_pos_iff.mpr hne
  have hfull : t.chunker.tracker.window.length < t.chunker.tracker.n ↔
      (entries n ls).length < n := by
    rw [hm.window, hm.n_eq, List.rtake, List.length_drop]
    omega
  have hmem : normalised hyp.text ∈ t.chunker.tracker.window := by
    rcases hw : t.chunker.tracker.window.getLast? with _ | x
    · rw [hw] at hnew
      simp only [Option.getD_none] at hnew
      rw [← hnew] at hlen
      simp only [List.length_nil] at hlen
      omega
    · rw [hw, Option.getD_some] at hnew
      exact hnew ▸ List.mem_of_getLast? hw
  rw [StabilityTracker.agreedLength_eq, StabilityTracker.agreedPrefix, WindowAgrees]
  split
  · rename_i hlt
    rw [hfull] at hlt
    simp only [List.length_nil]
    constructor
    · omega
    · exact fun h => absurd h.1 (by omega)
  · rename_i hge
    rw [hfull] at hge
    rw [hlen, length_le_commonPrefix_iff hmem, hm.window]
    exact ⟨fun h => ⟨by omega, h⟩, fun h => h.2⟩

omit [Unicode] in
/-- A drain speaks all of the newest hypothesis exactly when its tokens are
committed already, or agreed. -/
theorem emitAll_says_all_iff {c : PhraseChunker} {hyp last : Hypothesis} {reason : CommitReason}
    {now : Option ℚ} (hmax : 1 ≤ c.config.max_words)
    (hs : c.tracker.latest_surface = tokenise hyp.text) :
    SaidInFull hyp (c.emitAll last reason now) ↔
      (tokenise hyp.text).length ≤ c.tracker.committed ∨
        (tokenise hyp.text).length ≤ c.tracker.agreedLength := by
  obtain ⟨c', out, hr, hcount⟩ := c.emitAll_drains last reason now hmax
  have hlen := StabilityTracker.outstanding_length c.tracker
  rw [hs] at hlen
  have hsaid : SaidInFull hyp (c.emitAll last reason now) ↔
      (tokenise hyp.text).length ≤ c'.tracker.committed := by
    rw [hr]
    constructor
    · rintro ⟨d, o, hd, hle⟩
      cases hd
      exact hle
    · exact fun hle => ⟨c', out, rfl, hle⟩
  rw [hsaid, hcount, hlen]
  omega

/-- The newest entry of the window is the newest hypothesis, in every history. -/
theorem newest_entry {config : ChunkerConfig} {h : 1 ≤ config.agreement_n} {ls : List Call}
    {t : Talk} {hyp : Hypothesis} (hr : (talks config h).run ls = some t)
    (hl : lastFed ls = some hyp) :
    t.chunker.tracker.window.getLast?.getD [] = normalised hyp.text := by
  have hm := talks_remember hr
  rw [(talks_faithful hr).newest, StabilityTracker.latest, hm.surface, hl]
  rfl

/-- After a flush, and after a tick at the end of a silence, all of the newest
hypothesis is spoken exactly when the last n entries agree on it, or as many
tokens were committed before. -/
theorem the_drain_speaks_the_last_hypothesis_iff (config : ChunkerConfig)
    (h : 1 ≤ config.agreement_n) (hmax : 1 ≤ config.max_words) (ls : List Call) :
    ∃ t, (talks config h).run ls = some t ∧ ∀ hyp, lastFed ls = some hyp →
      (DrainsAll t hyp ↔ (tokenise hyp.text).length ≤ t.chunker.tracker.committed ∨
        WindowAgrees config.agreement_n ls hyp) := by
  obtain ⟨t, hr⟩ := talks_total config h hmax ls
  refine ⟨t, hr, ?_⟩
  intro hyp hl
  have hm := talks_remember hr
  have hsurf : t.chunker.tracker.latest_surface = tokenise hyp.text := by
    rw [hm.surface, hl]
    rfl
  have hmax' : 1 ≤ t.chunker.config.max_words := by
    rw [(talks_config hr).1]
    exact hmax
  have hcond : (tokenise hyp.text).length ≤ t.chunker.tracker.committed ∨
      (tokenise hyp.text).length ≤ t.chunker.tracker.agreedLength ↔
      (tokenise hyp.text).length ≤ t.chunker.tracker.committed ∨
        WindowAgrees config.agreement_n ls hyp := by
    by_cases hne : tokenise hyp.text = []
    · simp [hne]
    · rw [agreed_all_iff hm hne (newest_entry hr hl)]
  have hflush : t.chunker.flush = t.chunker.emitAll hyp .final none := by
    simp only [PhraseChunker.flush, hm.last_hyp, hl]
  rw [← hcond, DrainsAll, hflush, emitAll_says_all_iff hmax' hsurf]
  refine ⟨fun hd => hd.1, fun hs => ⟨hs, ?_⟩⟩
  intro now hnow
  have htick : t.chunker.tick now = t.chunker.emitAll hyp .silence (some now) := by
    simp only [PhraseChunker.tick, hm.last_hyp_wall, hm.last_hyp, hl, Option.map_some]
    rw [if_neg (not_lt.mpr hnow)]
  rw [htick, emitAll_says_all_iff hmax' hsurf]
  exact hs

end

/-! ## The last words of two talks -/

open ascii

/-- The end of a talk that was heard twice. -/
theorem the_drain_speaks_a_repeated_line :
    ∃ t, (talks {} (by decide)).run
        [.feed (.spoken "Thank you" false 0), .feed (.spoken "Thank you" false 1)] = some t ∧
      DrainsAll t (.spoken "Thank you" false 1) := by
  obtain ⟨t, hr, hiff⟩ := the_drain_speaks_the_last_hypothesis_iff {} (by decide) (by decide)
    [.feed (.spoken "Thank you" false 0), .feed (.spoken "Thank you" false 1)]
  refine ⟨t, hr, (hiff (.spoken "Thank you" false 1) rfl).mpr (Or.inr ?_)⟩
  unfold WindowAgrees
  decide +kernel

/-- The words of a talk that were heard once, with the default n of 2, stay
unspoken: the flush emits nothing. -/
theorem the_drain_leaves_a_line_heard_once :
    ∃ t, (talks {} (by decide)).run [.feed (.spoken "Thank you" false 0)] = some t ∧
      lastFed [.feed (.spoken "Thank you" false 0)] = some (.spoken "Thank you" false 0) ∧
      ¬ DrainsAll t (.spoken "Thank you" false 0) := by
  obtain ⟨t, hr⟩ := talks_total {} (by decide) (by decide) [.feed (.spoken "Thank you" false 0)]
  have hzero : ((talks {} (by decide)).run [.feed (.spoken "Thank you" false 0)]).bind
      (fun t => t.chunker.flush.map (·.1.tracker.committed)) = some 0 := by decide +kernel
  refine ⟨t, hr, rfl, ?_⟩
  rintro ⟨⟨c, out, hflush, hle⟩, -⟩
  rw [hr, Option.bind_some, hflush, Option.map_some, Option.some.injEq] at hzero
  rw [hzero] at hle
  exact absurd hle (by decide +kernel)

end lad_translate.phrase_chunker
