import ShaderScope.Table.Dialect
import ShaderScope.Table.Scope

/-!
# The stack of levels

The three tiers are at the bottom of the stack and stay there. Above them lie the
scopes that are open, the innermost on top. A lookup goes from the top down and
ends at the first level that has the key.
-/

namespace ShaderScope

/-- The tiers and, above them, the open scopes. -/
structure Levels (ν : Type) where
  scopes : Array (Scope ν)
  tiers_le : globalLevel ≤ scopes.size

namespace Levels

variable {ν : Type}

/-- The three tiers, all empty. -/
def fresh : Levels ν where
  scopes := #[.empty, .empty, .empty]
  tiers_le := Nat.le_refl 3

/-- The number of levels, with the tiers. -/
def count (levels : Levels ν) : Nat :=
  levels.scopes.size

/-- The innermost level. -/
def current (levels : Levels ν) : Nat :=
  levels.scopes.size - 1

/-- No scope is open above the tiers. -/
def atTier (levels : Levels ν) : Bool :=
  levels.current ≤ lastTierLevel

/-- The global scope is the innermost one. -/
def atGlobal (levels : Levels ν) : Bool :=
  levels.current == globalLevel

/-- The scope at a level. -/
def scope? (levels : Levels ν) (level : Nat) : Option (Scope ν) :=
  levels.scopes[level]?

theorem current_lt (levels : Levels ν) : levels.current < levels.scopes.size := by
  have h := levels.tiers_le
  simp only [globalLevel, lastTierLevel, Tier.level] at h
  unfold current
  omega

/-- The scope at the innermost level. -/
def innermost (levels : Levels ν) : Scope ν :=
  have h := levels.current_lt
  levels.scopes[levels.current]

theorem level_lt (levels : Levels ν) (tier : Tier) : tier.level < levels.scopes.size := by
  have h := levels.tiers_le
  have ht := level_le_lastTierLevel tier
  unfold globalLevel at h
  omega

/-- Open a scope. -/
def push (levels : Levels ν) : Levels ν where
  scopes := levels.scopes.push .empty
  tiers_le := by
    have h := levels.tiers_le
    rw [Array.size_push]
    omega

/-- Close the innermost scope. A tier is never closed. -/
def pop? (levels : Levels ν) : Option (Levels ν) :=
  if h : globalLevel < levels.scopes.size then
    some
      { scopes := levels.scopes.pop
        tiers_le := by
          rw [Array.size_pop]
          omega }
  else
    none

theorem pop?_push (levels : Levels ν) : levels.push.pop? = some levels := by
  have h := levels.tiers_le
  unfold pop? push
  rw [dif_pos (by rw [Array.size_push]; omega)]
  simp

/-- Replace the scope at a level. -/
def set (levels : Levels ν) (level : Nat) (scope : Scope ν) (h : level < levels.scopes.size) :
    Levels ν where
  scopes := levels.scopes.set level scope h
  tiers_le := by
    rw [Array.size_set]
    exact levels.tiers_le

theorem scope?_set (levels : Levels ν) (level : Nat) (scope : Scope ν)
    (h : level < levels.scopes.size) (other : Nat) :
    (levels.set level scope h).scope? other =
      if level = other then some scope else levels.scope? other := by
  unfold scope? set
  rw [Array.getElem?_set]

/-- The symbol with an identity, innermost levels first. -/
def byId? (levels : Levels ν) (id : SymbolId) (scan : Scan ν := .newestFirst) :
    Option (Symbol ν) :=
  levels.scopes.toList.reverse.findSome? (fun scope => scope.byId? id scan)

variable [DecidableEq ν]

/-- Store a symbol at a level, under a key that has to be free there. -/
def declare (levels : Levels ν) (level : Nat) (h : level < levels.scopes.size)
    (key : ν) (symbol : Symbol ν) : Except (Rejection ν) (Levels ν) :=
  (levels.scopes[level].declare key symbol).map (fun scope => levels.set level scope h)

/-- The symbol under a key at a level. -/
def at? (levels : Levels ν) (level : Nat) (key : ν) : Option (Symbol ν) :=
  (levels.scope? level).bind (fun scope => scope.find? key)

/-- The first level, from the given one down, that a lookup for the version may
search and that has the key, with the symbol that is there. -/
def find? (levels : Levels ν) (top : Nat) (version : Version) (key : ν) :
    Option (Nat × Symbol ν) :=
  (eligibleLevels version top).findSome? (fun level => (levels.at? level key).map (level, ·))

/-- A tier that a lookup for the version may search has a function of this name. -/
def tiersHaveFunction (levels : Levels ν) (version : Version) (name : ν) : Bool :=
  (eligibleLevels version lastTierLevel).any
    (fun level => (levels.scope? level).any (fun scope => scope.hasFunction name))

/-- Change the symbol under a key in the innermost level. -/
def modifyCurrent (levels : Levels ν) (key : ν) (change : Symbol ν → Symbol ν) : Levels ν :=
  levels.set levels.current (levels.innermost.modify key change) levels.current_lt

end Levels

end ShaderScope
