-- A store that is filled in bouts. A bout begins only below a mark, and the
-- store may run down at any time. It never holds more than the mark and its
-- largest bout.
import Mathlib

namespace reservoirs

/-- What a store holds, what its present bout has put in, and the most that a
bout has put in. -/
structure Reservoir where
  level : ℚ
  bout : ℚ
  most : ℚ
deriving DecidableEq

namespace Reservoir

def empty : Reservoir := ⟨0, 0, 0⟩

/-- A new bout begins. -/
def begins (r : Reservoir) : Reservoir := { r with bout := 0 }

/-- The present bout puts in up to an amount. -/
def fills (r : Reservoir) (level amount : ℚ) : Reservoir where
  level := level
  bout := r.bout + amount
  most := max r.most (r.bout + amount)

/-- The level is another one. -/
def runsDown (r : Reservoir) (level : ℚ) : Reservoir := { r with level }

/-- No bout has put in more than the most, and the level is at most the mark and
the most. -/
structure Within (mark : ℚ) (r : Reservoir) : Prop where
  bout_nonneg : 0 ≤ r.bout
  bout_le : r.bout ≤ r.most
  level_le : r.level ≤ mark + r.most

/-- The present bout began below the mark. -/
def Open (mark : ℚ) (r : Reservoir) : Prop := r.level ≤ mark + r.bout

variable {mark : ℚ} {r : Reservoir}

theorem within_empty (hmark : 0 ≤ mark) : Within mark empty :=
  ⟨le_rfl, le_rfl, by simpa [empty] using hmark⟩

theorem Within.most_nonneg (h : Within mark r) : 0 ≤ r.most := h.bout_nonneg.trans h.bout_le

theorem Within.begins (h : Within mark r) : Within mark r.begins :=
  ⟨le_rfl, h.most_nonneg, h.level_le⟩

/-- A bout that begins below the mark is open. -/
theorem open_begins (hlevel : r.level ≤ mark) : Open mark r.begins := by
  simpa [Open, Reservoir.begins] using hlevel

theorem Within.fills (h : Within mark r) (hopen : Open mark r) {level amount : ℚ}
    (hamount : 0 ≤ amount) (hlevel : level ≤ r.level + amount) :
    Within mark (r.fills level amount) := by
  have hmost : r.bout + amount ≤ max r.most (r.bout + amount) := le_max_right _ _
  refine ⟨add_nonneg h.bout_nonneg hamount, hmost, ?_⟩
  calc level ≤ r.level + amount := hlevel
    _ ≤ mark + r.bout + amount := by linarith [show r.level ≤ mark + r.bout from hopen]
    _ ≤ mark + max r.most (r.bout + amount) := by linarith

theorem Open.fills (hopen : Open mark r) {level amount : ℚ} (hlevel : level ≤ r.level + amount) :
    Open mark (r.fills level amount) := by
  have hbefore : r.level ≤ mark + r.bout := hopen
  have hafter : level ≤ mark + (r.bout + amount) := by linarith
  exact hafter

theorem Within.runsDown (h : Within mark r) {level : ℚ} (hlevel : level ≤ r.level) :
    Within mark (r.runsDown level) :=
  ⟨h.bout_nonneg, h.bout_le, hlevel.trans h.level_le⟩

theorem Open.runsDown (hopen : Open mark r) {level : ℚ} (hlevel : level ≤ r.level) :
    Open mark (r.runsDown level) :=
  hlevel.trans hopen

end Reservoir

end reservoirs
