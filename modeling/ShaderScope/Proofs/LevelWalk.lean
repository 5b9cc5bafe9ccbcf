import Mathlib.Order.Bounds.Basic
import ShaderScope.Proofs.Lookups

/-!
# The walk through the levels

A walk begins at the first level, from the top down, that its version sees. From the
level that it is at, a search finds the next one below, and where there is none the
walk ends. The levels of a lookup are those of the walk. The version decides about two
tiers only, so that every walk comes to the common tier and ends there.
-/

namespace ShaderScope

variable {version : Version} {level below top : Nat}

/-! ## The search for the next level -/

theorem isGreatest_of_nextEligible (h : nextEligible version level = some below) :
    IsGreatest {l | l < level ∧ version.Sees l} below := by
  induction level with
  | zero => cases h
  | succ level ih =>
      rw [nextEligible] at h
      split at h
      case isTrue hseen =>
        cases h
        refine ⟨⟨Nat.lt_succ_self below, (version.sees_iff_eligible below).mpr hseen⟩, ?_⟩
        intro l hl
        exact Nat.le_of_lt_succ hl.1
      case isFalse hunseen =>
        obtain ⟨⟨hlt, hsees⟩, hgreatest⟩ := ih h
        refine ⟨⟨Nat.lt_succ_of_lt hlt, hsees⟩, ?_⟩
        intro l hl
        -- The search went on below because the level itself is not one that is seen.
        have hne : l ≠ level := by
          rintro rfl
          exact hunseen ((version.sees_iff_eligible l).mp hl.2)
        exact hgreatest ⟨Nat.lt_of_le_of_ne (Nat.le_of_lt_succ hl.1) hne, hl.2⟩

/-- Below every level but the lowest one the search comes to the common tier, if it has
not ended before. -/
theorem nextEligible_eq_none_iff : nextEligible version level = none ↔ level = 0 := by
  constructor
  · intro h
    induction level with
    | zero => rfl
    | succ level ih =>
        rw [nextEligible] at h
        split at h
        case isTrue hseen => cases h
        case isFalse hunseen =>
          rw [ih h] at hunseen
          exact absurd (eligible_zero version) hunseen
  · rintro rfl
    rfl

/-- The search finds the greatest level below that the version sees. -/
theorem nextEligible_eq_some_iff :
    nextEligible version level = some below ↔
      IsGreatest {l | l < level ∧ version.Sees l} below := by
  constructor
  · exact isGreatest_of_nextEligible
  · intro hgreatest
    cases hnext : nextEligible version level with
    | none =>
        have hlt := hgreatest.1.1
        rw [nextEligible_eq_none_iff.mp hnext] at hlt
        cases hlt
    | some found => rw [(isGreatest_of_nextEligible hnext).unique hgreatest]

/-! ## The walk -/

/-- The level at which a walk from the top begins. -/
def firstEligible (version : Version) (top : Nat) : Option Nat :=
  if eligible version top then some top else nextEligible version top

/-- A walk that has come to a level, or to its end, visits these levels from there on. -/
inductive Walk (version : Version) : Option Nat → List Nat → Prop
  | ended : Walk version none []
  | visit {level : Nat} {rest : List Nat} (next : Walk version (nextEligible version level) rest) :
      Walk version (some level) (level :: rest)

theorem Walk.deterministic {position : Option Nat} {levels others : List Nat}
    (walk : Walk version position levels) (other : Walk version position others) :
    levels = others := by
  induction walk generalizing others with
  | ended =>
      cases other
      rfl
  | visit next ih =>
      cases other with
      | visit next' => rw [ih next']

/-- The search below a level is the start of a walk from the level under it. -/
theorem nextEligible_succ (version : Version) (level : Nat) :
    nextEligible version (level + 1) = firstEligible version level :=
  rfl

/-- A walk from any top ends, and it visits the levels of a lookup. -/
theorem walk_eligibleLevels (version : Version) (top : Nat) :
    Walk version (firstEligible version top) (eligibleLevels version top) := by
  induction top with
  | zero => exact .visit .ended
  | succ top ih =>
      -- Seen or not, the top is followed by the walk from the level under it.
      rw [firstEligible, eligibleLevels, nextEligible_succ]
      split
      · exact .visit ih
      · exact ih

theorem walk_iff {levels : List Nat} :
    Walk version (firstEligible version top) levels ↔ levels = eligibleLevels version top := by
  constructor
  · intro walk
    exact walk.deterministic (walk_eligibleLevels version top)
  · rintro rfl
    exact walk_eligibleLevels version top

/-! ## The levels of a walk -/

theorem getLast?_eligibleLevels (version : Version) (top : Nat) :
    (eligibleLevels version top).getLast? = some 0 := by
  induction top with
  | zero => rfl
  | succ top ih =>
      rw [eligibleLevels]
      split
      · rw [List.getLast?_cons, ih, Option.getD_some]
      · exact ih

theorem nodup_eligibleLevels (version : Version) (top : Nat) :
    (eligibleLevels version top).Nodup :=
  (eligibleLevels_pairwise version top).imp Nat.ne_of_gt

theorem Version.not_sees_both (version : Version) : ¬ (version.Sees 1 ∧ version.Sees 2) := by
  rintro ⟨hone, htwo⟩
  have hnumber := (hone.1 rfl).symm.trans (htwo.2 rfl)
  exact absurd hnumber (by decide)

/-- The walk through the levels is exact. From every top and for every version it ends
after it has visited the levels of a lookup, and these alone. They are the levels up to
the top that the version sees, each once and from the top down. The last one is the
common tier, and at most one of them belongs to a version. The search that leads from
one level to the next finds the greatest seen level below, unless there is no level
below. -/
theorem level_walk_exact (version : Version) (top : Nat) :
    (∀ levels, Walk version (firstEligible version top) levels ↔
      levels = eligibleLevels version top) ∧
    (eligibleLevels version top).Pairwise (fun level below => below < level) ∧
    (eligibleLevels version top).Nodup ∧
    (∀ level, level ∈ eligibleLevels version top ↔ level ≤ top ∧ version.Sees level) ∧
    (eligibleLevels version top).getLast? = some 0 ∧
    ¬ (1 ∈ eligibleLevels version top ∧ 2 ∈ eligibleLevels version top) ∧
    (∀ level below, nextEligible version level = some below ↔
      IsGreatest {l | l < level ∧ version.Sees l} below) ∧
    (∀ level, nextEligible version level = none ↔ level = 0) := by
  refine ⟨fun _ => walk_iff, eligibleLevels_pairwise version top, nodup_eligibleLevels version top,
    fun _ => mem_eligibleLevels_iff_sees, getLast?_eligibleLevels version top, ?_,
    fun _ _ => nextEligible_eq_some_iff, fun _ => nextEligible_eq_none_iff⟩
  rintro ⟨hone, htwo⟩
  exact version.not_sees_both
    ⟨(mem_eligibleLevels_iff_sees.mp hone).2, (mem_eligibleLevels_iff_sees.mp htwo).2⟩

/-- A tier of another version is passed over, also where the walk would begin at it. -/
example : eligibleLevels .essl100 5 = [5, 4, 3, 1, 0] ∧ eligibleLevels .essl300 1 = [0] := by
  decide

end ShaderScope
