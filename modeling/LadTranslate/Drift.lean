-- Playout drift control (session/drift.py): how far each language is behind
-- decides whether its next phrase is skipped, and how fast it is spoken.
-- Seconds are exact rationals. The log lines and the summary are left out.
import LadTranslate.Rounding

open rounding

namespace lad_translate.drift

/-- Thresholds on the playout queue, in seconds. A policy that exists has
increasing thresholds, a ramp of half a second, and does not slow down. -/
structure DriftPolicy where
  comfortable_s : ℚ
  speedup_at_s : ℚ
  skip_at_s : ℚ
  max_speed : ℚ
  language : Option String
  comfortable_lt : comfortable_s < speedup_at_s
  speedup_lt : speedup_at_s < skip_at_s
  max_speed_ge : 1 ≤ max_speed
  ramp : 1 / 2 ≤ skip_at_s - speedup_at_s

namespace DriftPolicy

/-- The constructor, with the checks of `__post_init__`. -/
def new (comfortable_s : ℚ := 1 / 2) (speedup_at_s : ℚ := 3 / 2) (skip_at_s : ℚ := 6)
    (max_speed : ℚ := 13 / 10) (language : Option String := none) : Except String DriftPolicy :=
  if h : comfortable_s < speedup_at_s ∧ speedup_at_s < skip_at_s then
    if hmax : max_speed < 1 then
      .error "max_speed below 1.0 would slow playout and deepen the drift"
    else if hramp : skip_at_s - speedup_at_s < 1 / 2 then
      .error "leave at least 0.5s between speedup_at_s and skip_at_s so the speed ramp is gradual rather than a step"
    else .ok {
      comfortable_s, speedup_at_s, skip_at_s, max_speed, language
      comfortable_lt := h.1
      speedup_lt := h.2
      max_speed_ge := not_lt.mp hmax
      ramp := not_lt.mp hramp }
  else .error "thresholds must increase: comfortable < speedup < skip"

end DriftPolicy

/-- `DEFAULT_POLICY`: a language with no measurements of its own. -/
def defaultPolicy : DriftPolicy where
  comfortable_s := 1 / 2
  speedup_at_s := 3 / 2
  skip_at_s := 6
  max_speed := 13 / 10
  language := none
  comfortable_lt := by norm_num
  speedup_lt := by norm_num
  max_speed_ge := by norm_num
  ramp := by norm_num

/-- `LANGUAGE_POLICIES`: the measured overrides. -/
def languagePolicies (language : String) : Option DriftPolicy :=
  if language = "ar" then some {
    comfortable_s := 4 / 10
    speedup_at_s := 1
    skip_at_s := 6
    max_speed := 13 / 10
    language := some "ar"
    comfortable_lt := by norm_num
    speedup_lt := by norm_num
    max_speed_ge := by norm_num
    ramp := by norm_num }
  else none

structure LanguageDrift where
  queue_depth_s : ℚ := 0
  peak_depth_s : ℚ := 0
  skipped_phrases : Nat := 0
  skipped_seconds : ℚ := 0
  speedup_phrases : Nat := 0
deriving DecidableEq

/-- Tracks the playout queue per language. The two dictionaries of the source
have the session's languages as their keys. -/
structure DriftController where
  default_policy : DriftPolicy
  policies : String → Option DriftPolicy
  state : String → Option LanguageDrift

namespace DriftController

/-- Resolution order: explicit, then measured, then the default. -/
def new (languages : List String) (default_policy : Option DriftPolicy)
    (policies : String → Option DriftPolicy) : DriftController where
  default_policy := default_policy.getD defaultPolicy
  policies language :=
    if language ∈ languages then
      some (((policies language).or (languagePolicies language)).getD
        (default_policy.getD defaultPolicy))
    else none
  state language := if language ∈ languages then some {} else none

/-- The policy in force for a language. -/
def policyFor (c : DriftController) (language : String) : DriftPolicy :=
  (c.policies language).getD c.default_policy

/-- A language's record, changed. -/
def update (c : DriftController) (language : String) (d : LanguageDrift) : DriftController :=
  { c with state := Function.update c.state language (some d) }

/-- Record the current playout queue depth. -/
def observe (c : DriftController) (language : String) (queue_depth_s : ℚ) : DriftController :=
  match c.state language with
  | none => c
  | some d =>
    let depth := max 0 queue_depth_s
    c.update language { d with queue_depth_s := depth, peak_depth_s := max d.peak_depth_s depth }

/-- The ramp of a policy: normal at `speedup_at_s`, `max_speed` from
`skip_at_s` on, to three decimals. -/
def rampSpeed (policy : DriftPolicy) (depth : ℚ) : ℚ :=
  let span := policy.skip_at_s - policy.speedup_at_s
  let fraction := if span > 0 then min 1 ((depth - policy.speedup_at_s) / span) else 1
  let speed := 1 + fraction * (policy.max_speed - 1)
  roundHalfEven (speed * 1000) / 1000

/-- TTS rate for the next phrase in this language. -/
def speedFor (c : DriftController) (language : String) : DriftController × ℚ :=
  match c.state language with
  | none => (c, 1)
  | some d =>
    let policy := c.policyFor language
    if d.queue_depth_s ≤ policy.speedup_at_s then (c, 1)
    else (c.update language { d with speedup_phrases := d.speedup_phrases + 1 },
      rampSpeed policy d.queue_depth_s)

/-- Whether to drop the next phrase in this language. -/
def shouldSkip (c : DriftController) (language : String) : Bool :=
  match c.state language with
  | none => false
  | some d => decide (d.queue_depth_s ≥ (c.policyFor language).skip_at_s)

def noteSkipped (c : DriftController) (language : String) (seconds : ℚ) : DriftController :=
  match c.state language with
  | none => c
  | some d => c.update language { d with
      skipped_phrases := d.skipped_phrases + 1
      skipped_seconds := d.skipped_seconds + seconds }

/-! ## The decision, by the depth alone -/

/-- What a controller decides after it observed a depth. -/
inductive Decision
  | skip
  | speak (speed : ℚ)
deriving DecidableEq

/-- The decision of a policy at a depth. -/
def decision (policy : DriftPolicy) (queue_depth_s : ℚ) : Decision :=
  let depth := max 0 queue_depth_s
  if depth ≥ policy.skip_at_s then .skip
  else .speak (if depth ≤ policy.speedup_at_s then 1 else rampSpeed policy depth)

/-- The controllers of a session keep their policies, and have a record for
each language of the session. -/
structure Covers (c : DriftController) (languages : List String)
    (policy : String → DriftPolicy) : Prop where
  policy : ∀ l, c.policyFor l = policy l
  state : ∀ l, (c.state l).isSome ↔ l ∈ languages

@[simp] theorem update_policyFor (c : DriftController) (language l : String) (d : LanguageDrift) :
    (c.update language d).policyFor l = c.policyFor l := rfl

theorem covers_new (languages : List String) (default_policy : Option DriftPolicy)
    (policies : String → Option DriftPolicy) :
    (new languages default_policy policies).Covers languages
      (new languages default_policy policies).policyFor := by
  refine ⟨fun _ => rfl, ?_⟩
  intro l
  simp only [new]
  split <;> simp_all

theorem Covers.update {c : DriftController} {languages : List String} {policy : String → DriftPolicy}
    (h : c.Covers languages policy) {language : String} {d e : LanguageDrift}
    (hd : c.state language = some d) : (c.update language e).Covers languages policy := by
  refine ⟨h.policy, ?_⟩
  intro l
  by_cases hl : l = language
  · subst hl
    have hmem := (h.state l).mp (by simp [hd])
    simp [DriftController.update, hmem]
  · simp only [DriftController.update, Function.update_of_ne hl]
    exact h.state l

theorem Covers.observe {c : DriftController} {languages : List String} {policy : String → DriftPolicy}
    (h : c.Covers languages policy) (language : String) (depth : ℚ) :
    (c.observe language depth).Covers languages policy := by
  unfold DriftController.observe
  split
  · exact h
  · exact h.update ‹_›

theorem Covers.speedFor {c : DriftController} {languages : List String}
    {policy : String → DriftPolicy} (h : c.Covers languages policy) (language : String) :
    (c.speedFor language).1.Covers languages policy := by
  unfold DriftController.speedFor
  split
  · exact h
  · simp only
    split
    · exact h
    · exact h.update ‹_›

theorem Covers.noteSkipped {c : DriftController} {languages : List String}
    {policy : String → DriftPolicy} (h : c.Covers languages policy) (language : String)
    (seconds : ℚ) : (c.noteSkipped language seconds).Covers languages policy := by
  unfold DriftController.noteSkipped
  split
  · exact h
  · exact h.update ‹_›

/-- Right after an observation the controller decides by the observed depth,
whatever it saw before and whatever the other languages do. -/
theorem decides_by_depth {c : DriftController} {languages : List String}
    {policy : String → DriftPolicy} (h : c.Covers languages policy) {language : String}
    (hl : language ∈ languages) (depth : ℚ) :
    (if (c.observe language depth).shouldSkip language then Decision.skip
      else .speak ((c.observe language depth).speedFor language).2) =
      decision (policy language) depth := by
  obtain ⟨d, hd⟩ := Option.isSome_iff_exists.mp ((h.state language).mpr hl)
  have hobserved : (c.observe language depth).state language =
      some { d with queue_depth_s := max 0 depth,
                    peak_depth_s := max d.peak_depth_s (max 0 depth) } := by
    simp [observe, hd, DriftController.update]
  have hpolicy := (h.observe language depth).policy language
  unfold shouldSkip DriftController.speedFor decision
  rw [hobserved]
  simp only [hpolicy, decide_eq_true_eq]
  split
  · rfl
  · split <;> rfl

end DriftController

end lad_translate.drift
