-- Machines with a partial step: a start state, and one step for each label.
-- A label that the state does not take gives `none`. The laws give
-- invariants over every run, a bound on the length of a run, and the history
-- of what an observer notes at each step.
import Mathlib

namespace machines

/-- The last of a history that goes on. -/
theorem getLastD_append {α : Type*} (xs ys : List α) (d : α) :
    (xs ++ ys).getLastD d = ys.getLastD (xs.getLastD d) := by
  rw [List.getLastD_eq_getLast?, List.getLast?_append, Option.getD_or, List.getLastD_eq_getLast?,
    List.getLastD_eq_getLast?]

/-- A state machine. `step s a` is the state after label `a`, or `none`
when `s` does not take `a`. -/
structure Machine (σ ι : Type*) where
  start : σ
  step : σ → ι → Option σ

variable {σ ι : Type*} (m : Machine σ ι)

namespace Machine

/-- The state after the labels, in order, from a state. -/
def runFrom (s : σ) (ls : List ι) : Option σ := ls.foldlM m.step s

/-- The state after the labels, in order, from the start. -/
def run (ls : List ι) : Option σ := m.runFrom m.start ls

/-- A state that some run reaches. -/
def Reachable (s : σ) : Prop := ∃ ls, m.run ls = some s

@[simp] theorem runFrom_nil (s : σ) : m.runFrom s [] = some s := rfl

@[simp] theorem run_nil : m.run [] = some m.start := rfl

theorem runFrom_cons (s : σ) (a : ι) (ls : List ι) :
    m.runFrom s (a :: ls) = (m.step s a).bind (m.runFrom · ls) := rfl

theorem runFrom_append (s : σ) (xs ys : List ι) :
    m.runFrom s (xs ++ ys) = (m.runFrom s xs).bind (m.runFrom · ys) := by
  simp [runFrom, List.foldlM_append]

theorem runFrom_append_some {s t : σ} {xs ys : List ι} :
    m.runFrom s (xs ++ ys) = some t ↔ ∃ u, m.runFrom s xs = some u ∧ m.runFrom u ys = some t := by
  rw [runFrom_append, Option.bind_eq_some_iff]

theorem run_append_some {t : σ} {xs ys : List ι} :
    m.run (xs ++ ys) = some t ↔ ∃ s, m.run xs = some s ∧ m.runFrom s ys = some t :=
  m.runFrom_append_some

theorem run_snoc_some {t : σ} {ls : List ι} {a : ι} :
    m.run (ls ++ [a]) = some t ↔ ∃ s, m.run ls = some s ∧ m.step s a = some t := by
  rw [run_append_some]
  simp [runFrom_cons]

/-- The induction over runs: what holds at the start, and is kept by each
step after each run, holds after every run. -/
theorem run_induction {P : List ι → σ → Prop} (h0 : P [] m.start)
    (hs : ∀ ls s a t, m.run ls = some s → P ls s → m.step s a = some t → P (ls ++ [a]) t)
    {ls : List ι} {s : σ} (h : m.run ls = some s) : P ls s := by
  induction ls using List.reverseRecOn generalizing s with
  | nil =>
    rw [run_nil, Option.some.injEq] at h
    exact h ▸ h0
  | append_singleton ls a ih =>
    obtain ⟨u, hu, ha⟩ := m.run_snoc_some.mp h
    exact hs ls u a s hu (ih hu) ha

/-- An invariant of the steps holds in every state that a run reaches. -/
theorem invariant {P : σ → Prop} (h0 : P m.start)
    (hs : ∀ s a t, P s → m.step s a = some t → P t) {s : σ} (h : m.Reachable s) : P s := by
  obtain ⟨ls, hr⟩ := h
  exact m.run_induction (P := fun _ s => P s) h0 (fun _ s a t _ hp ha => hs s a t hp ha) hr

/-- What every step keeps holds at the end of a run when it holds at its start. -/
theorem kept {P : σ → Prop} (hs : ∀ s a t, P s → m.step s a = some t → P t)
    {ls : List ι} {s t : σ} (hp : P s) (h : m.runFrom s ls = some t) : P t := by
  induction ls generalizing s with
  | nil =>
    rw [runFrom_nil, Option.some.injEq] at h
    exact h ▸ hp
  | cons a ls ih =>
    rw [runFrom_cons, Option.bind_eq_some_iff] at h
    obtain ⟨u, ha, hu⟩ := h
    exact ih (hs s a u hp ha) hu

/-- When every label is taken under an invariant, every list of labels is a run. -/
theorem run_total {P : σ → Prop} (h0 : P m.start)
    (hs : ∀ s a, P s → ∃ t, m.step s a = some t ∧ P t) (ls : List ι) :
    ∃ s, m.run ls = some s ∧ P s := by
  induction ls using List.reverseRecOn with
  | nil => exact ⟨m.start, rfl, h0⟩
  | append_singleton ls a ih =>
    obtain ⟨s, hr, hp⟩ := ih
    obtain ⟨t, ha, ht⟩ := hs s a hp
    exact ⟨t, m.run_snoc_some.mpr ⟨s, hr, ha⟩, ht⟩

/-- A run is no longer than what a measure loses in it. -/
theorem length_le_of_measure {P : σ → Prop} (μ : σ → Nat)
    (hp : ∀ s a t, P s → m.step s a = some t → P t)
    (hs : ∀ s a t, P s → m.step s a = some t → μ t < μ s)
    {ls : List ι} {s t : σ} (h0 : P s) (h : m.runFrom s ls = some t) :
    ls.length + μ t ≤ μ s := by
  induction ls generalizing s with
  | nil =>
    rw [runFrom_nil, Option.some.injEq] at h
    simp [h]
  | cons a ls ih =>
    rw [runFrom_cons, Option.bind_eq_some_iff] at h
    obtain ⟨u, ha, hu⟩ := h
    have hlt := hs s a u h0 ha
    have hle := ih (hp s a u h0 ha) hu
    rw [List.length_cons]
    omega

/-- When a step raises a flag exactly by what it is, the flag is up after a run
exactly when a step of the run raised it. -/
theorem flag_iff {P : σ → Prop} (flag : σ → Prop) (raises : σ → ι → Prop) (h0 : P m.start)
    (hs : ∀ s a t, P s → m.step s a = some t → P t) (hdown : ¬ flag m.start)
    (hflag : ∀ s a t, P s → m.step s a = some t → (flag t ↔ flag s ∨ raises s a))
    {ls : List ι} {s : σ} (h : m.run ls = some s) :
    flag s ↔ ∃ xs a ys u, ls = xs ++ a :: ys ∧ m.run xs = some u ∧ raises u a := by
  refine m.run_induction (P := fun ls s =>
    flag s ↔ ∃ xs a ys u, ls = xs ++ a :: ys ∧ m.run xs = some u ∧ raises u a) ?_ ?_ h
  · simp [hdown]
  · intro ls s a t hr ih ha
    rw [hflag s a t (m.invariant h0 hs ⟨ls, hr⟩) ha, ih]
    constructor
    · rintro (⟨xs, b, ys, u, rfl, hu, hb⟩ | ha)
      · exact ⟨xs, b, ys ++ [a], u, by simp, hu, hb⟩
      · exact ⟨ls, a, [], s, rfl, hr, ha⟩
    · rintro ⟨xs, b, ys, u, heq, hu, hb⟩
      rcases List.eq_nil_or_concat ys with rfl | ⟨ys, c, rfl⟩
      · obtain ⟨rfl, hab⟩ := List.append_inj' heq rfl
        rw [hr] at hu
        cases hu
        cases hab
        exact .inr hb
      · have hcons : xs ++ b :: (ys ++ [c]) = (xs ++ b :: ys) ++ [c] := by simp
        rw [List.concat_eq_append, hcons] at heq
        exact .inl ⟨xs, b, ys, u, (List.append_inj' heq rfl).1, hu, hb⟩

/-! ## Runs whose steps meet a condition -/

section

variable (C : σ → ι → Prop)

/-- Each step along the labels, in order, from a state, meets a condition on the
state before it and the label. -/
def Meets : σ → List ι → Prop
  | _, [] => True
  | s, a :: ls => C s a ∧
    match m.step s a with
    | none => True
    | some t => Meets t ls

instance decidableMeets [∀ s a, Decidable (C s a)] :
    (s : σ) → (ls : List ι) → Decidable (m.Meets C s ls)
  | _, [] => inferInstanceAs (Decidable True)
  | s, a :: ls =>
    have : Decidable (match m.step s a with | none => True | some t => m.Meets C t ls) :=
      match m.step s a with
      | none => inferInstanceAs (Decidable True)
      | some t => decidableMeets t ls
    inferInstanceAs (Decidable (_ ∧ _))

variable {C}

/-- What every step that meets the condition keeps holds along a run of such steps. -/
theorem kept_of_meets {P : σ → Prop} (hs : ∀ s a t, P s → C s a → m.step s a = some t → P t)
    {xs ys : List ι} {s t : σ} (hp : P s) (hmeets : m.Meets C s (xs ++ ys))
    (h : m.runFrom s xs = some t) : P t := by
  induction xs generalizing s with
  | nil =>
    rw [runFrom_nil, Option.some.injEq] at h
    exact h ▸ hp
  | cons a xs ih =>
    rw [runFrom_cons, Option.bind_eq_some_iff] at h
    obtain ⟨u, ha, hu⟩ := h
    rw [List.cons_append, Meets, ha] at hmeets
    exact ih (hs s a u hp hmeets.1 ha) hmeets.2 hu

end

/-! ## What an observer notes -/

variable {β : Type*}

/-- What an observer notes along the labels, in order, from a state. -/
def historyFrom (note : σ → ι → σ → List β) : σ → List ι → List β
  | _, [] => []
  | s, a :: ls =>
    match m.step s a with
    | none => []
    | some t => note s a t ++ historyFrom note t ls

/-- What an observer notes along a run from the start. -/
def history (note : σ → ι → σ → List β) (ls : List ι) : List β := m.historyFrom note m.start ls

@[simp] theorem history_nil (note : σ → ι → σ → List β) : m.history note [] = [] := rfl

theorem historyFrom_append (note : σ → ι → σ → List β) {s t : σ} {xs ys : List ι}
    (h : m.runFrom s xs = some t) :
    m.historyFrom note s (xs ++ ys) = m.historyFrom note s xs ++ m.historyFrom note t ys := by
  induction xs generalizing s with
  | nil =>
    rw [runFrom_nil, Option.some.injEq] at h
    subst h
    rfl
  | cons a xs ih =>
    rw [runFrom_cons, Option.bind_eq_some_iff] at h
    obtain ⟨u, ha, hu⟩ := h
    rw [List.cons_append, historyFrom, historyFrom, ha]
    simp only
    rw [ih hu, List.append_assoc]

/-- One more step, and what is noted at it. -/
theorem history_snoc (note : σ → ι → σ → List β) {s t : σ} {ls : List ι} {a : ι}
    (h : m.run ls = some s) (ha : m.step s a = some t) :
    m.history note (ls ++ [a]) = m.history note ls ++ note s a t := by
  rw [history, m.historyFrom_append note h]
  rw [historyFrom, ha]
  simp only [historyFrom, List.append_nil]
  rfl

/-- The machine together with what an observer noted so far. -/
def observed (note : σ → ι → σ → List β) : Machine (σ × List β) ι where
  start := (m.start, [])
  step p a := (m.step p.1 a).map fun t => (t, p.2 ++ note p.1 a t)

theorem observed_step {note : σ → ι → σ → List β} {p q : σ × List β} {a : ι} :
    (m.observed note).step p a = some q ↔
      m.step p.1 a = some q.1 ∧ q.2 = p.2 ++ note p.1 a q.1 := by
  simp only [observed, Option.map_eq_some_iff, Prod.ext_iff]
  constructor
  · rintro ⟨t, ht, rfl, hq⟩
    exact ⟨ht, hq.symm⟩
  · rintro ⟨ht, hq⟩
    exact ⟨q.1, ht, rfl, hq.symm⟩

/-- The runs of the observed machine are the runs, each with its history. -/
theorem observed_run {note : σ → ι → σ → List β} {ls : List ι} {p : σ × List β} :
    (m.observed note).run ls = some p ↔ m.run ls = some p.1 ∧ p.2 = m.history note ls := by
  induction ls using List.reverseRecOn generalizing p with
  | nil =>
    rw [run_nil, run_nil, Option.some.injEq, Option.some.injEq, Prod.ext_iff]
    exact ⟨fun ⟨h1, h2⟩ => ⟨h1, h2.symm⟩, fun ⟨h1, h2⟩ => ⟨h1, h2.symm⟩⟩
  | append_singleton ls a ih =>
    rw [run_snoc_some, run_snoc_some]
    constructor
    · rintro ⟨q, hq, ha⟩
      obtain ⟨hrun, hhist⟩ := ih.mp hq
      obtain ⟨hstep, hnote⟩ := m.observed_step.mp ha
      exact ⟨⟨q.1, hrun, hstep⟩, by rw [m.history_snoc note hrun hstep, ← hhist, hnote]⟩
    · rintro ⟨⟨s, hrun, hstep⟩, hnote⟩
      rw [m.history_snoc note hrun hstep] at hnote
      exact ⟨(s, m.history note ls), ih.mpr ⟨hrun, rfl⟩, m.observed_step.mpr ⟨hstep, hnote⟩⟩

end Machine

end machines
