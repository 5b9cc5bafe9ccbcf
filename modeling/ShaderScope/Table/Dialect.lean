/-!
# Dialects

The three lowest levels of a table hold what every shader may use without
declaring it. The first of them is common to all dialects, and each of the other
two belongs to one version of the language. A lookup is made for a version and
passes over the tier of the other one.
-/

namespace ShaderScope

/-- A language version, as a shader writes it down. -/
structure Version where
  number : UInt32
  deriving DecidableEq

namespace Version

/-- Written as `100`. -/
def essl100 : Version := ⟨100⟩

/-- Written as `300 es`. -/
def essl300 : Version := ⟨300⟩

end Version

/-- The levels that hold built-in declarations. -/
inductive Tier where
  | common | essl100 | essl300
  deriving DecidableEq

namespace Tier

/-- The tiers from the lowest level up. -/
def all : List Tier :=
  [common, essl100, essl300]

/-- The level of a tier. -/
def level : Tier → Nat
  | common => 0
  | essl100 => 1
  | essl300 => 2

end Tier

/-- The topmost level that holds built-in declarations. -/
def lastTierLevel : Nat := Tier.essl300.level

/-- The level of the first scope that a shader opens. -/
def globalLevel : Nat := lastTierLevel + 1

theorem level_le_lastTierLevel (tier : Tier) : tier.level ≤ lastTierLevel := by
  cases tier <;> decide

/-- A lookup for a version may search the level. -/
def eligible (version : Version) (level : Nat) : Bool :=
  if level = Tier.essl100.level then version = Version.essl100
  else if level = Tier.essl300.level then version = Version.essl300
  else true

theorem eligible_zero (version : Version) : eligible version 0 = true :=
  rfl

/-- The next level below a level that a lookup may search. -/
def nextEligible (version : Version) : Nat → Option Nat
  | 0 => none
  | level + 1 => if eligible version level then some level else nextEligible version level

/-- The levels that a lookup searches from the top down. -/
def eligibleLevels (version : Version) : Nat → List Nat
  | 0 => [0]
  | level + 1 =>
      if eligible version (level + 1) then (level + 1) :: eligibleLevels version level
      else eligibleLevels version level

theorem mem_eligibleLevels (version : Version) (top level : Nat) :
    level ∈ eligibleLevels version top ↔ level ≤ top ∧ eligible version level = true := by
  induction top with
  | zero =>
      rw [eligibleLevels, List.mem_singleton, Nat.le_zero]
      constructor
      · rintro rfl
        exact ⟨rfl, rfl⟩
      · intro h
        exact h.1
  | succ top ih =>
      rw [eligibleLevels]
      by_cases hlevel : level = top + 1
      · subst hlevel
        have hnot : ¬ (top + 1 ≤ top) := Nat.not_succ_le_self top
        by_cases he : eligible version (top + 1) <;> simp [he, ih]
      · have hle : level ≤ top + 1 ↔ level ≤ top := by omega
        by_cases he : eligible version (top + 1) <;> simp [he, ih, hle, hlevel]

end ShaderScope
