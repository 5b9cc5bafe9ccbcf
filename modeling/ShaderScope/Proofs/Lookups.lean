import ShaderScope.Proofs.Placement
import ShaderScope.Table.Basic

/-!
# Lookups

What a lookup of a table visits and what it answers, in terms of the levels that
there are and of the version that the lookup is made for.
-/

namespace ShaderScope

/-- The levels that a lookup for the version may search. -/
def Version.Sees (version : Version) (level : Nat) : Prop :=
  (level = 1 → version.number = 100) ∧ (level = 2 → version.number = 300)

theorem Version.sees_iff_eligible (version : Version) (level : Nat) :
    version.Sees level ↔ eligible version level = true := by
  have hversion : ∀ n, version = ⟨n⟩ ↔ version.number = n := by
    intro n
    cases version
    simp
  unfold Version.Sees eligible
  simp only [Tier.level, Version.essl100, Version.essl300, hversion]
  by_cases hone : level = 1
  · simp [hone]
  · by_cases htwo : level = 2
    · simp [htwo]
    · simp [hone, htwo]

theorem mem_eligibleLevels_iff_sees {version : Version} {top level : Nat} :
    level ∈ eligibleLevels version top ↔ level ≤ top ∧ version.Sees level := by
  rw [mem_eligibleLevels, version.sees_iff_eligible]

/-- A lookup visits the levels that there are and that its version sees. -/
theorem Table.mem_eligibleLevels_current (table : Table) (version : Version) (level : Nat) :
    level ∈ eligibleLevels version table.current ↔
      level < table.levels.count ∧ version.Sees level := by
  have hcurrent := table.levels.current_add_one
  rw [mem_eligibleLevels_iff_sees, Table.current]
  constructor
  · rintro ⟨hle, hsees⟩
    exact ⟨by omega, hsees⟩
  · rintro ⟨hlt, hsees⟩
    exact ⟨by omega, hsees⟩

/-- A hit tells where it was found. -/
theorem Table.find?_eq_some_iff {table : Table} {key : Ident} {version : Version} {hit : Hit} :
    table.find? key version = some hit ↔
      table.levels.find? table.current version key = some (hit.level, hit.symbol) ∧
        hit.isBuiltin = decide (hit.level ≤ lastTierLevel) ∧
        hit.isSameScope = decide (hit.level = table.current) := by
  unfold find?
  constructor
  · intro h
    obtain ⟨found, hfound, rfl⟩ := Option.map_eq_some_iff.mp h
    exact ⟨hfound, rfl, rfl⟩
  · rintro ⟨hfound, hbuiltin, hscope⟩
    obtain ⟨symbol, level, isBuiltin, isSameScope⟩ := hit
    rw [hfound]
    simp only at hbuiltin hscope
    simp only [Option.map_some, hbuiltin, hscope]

end ShaderScope
