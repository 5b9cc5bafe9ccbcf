import ShaderScope.Proofs.Ledger
import ShaderScope.Proofs.Lookups

/-!
# Lexical scoping

The levels of a table hold the live declarations of its ledger. A lookup therefore
finds the live declaration of a key at the greatest level that it may search.
-/

namespace ShaderScope

/-- A live record of the key at a level that a lookup for the version may search. -/
def Ledger.Visible (ledger : Ledger) (key : Ident) (version : Version) (r : Record) : Prop :=
  r ∈ ledger.records ∧ ledger.Live r ∧ r.key = key ∧ version.Sees r.level

namespace Tracks

variable {ledger : Ledger} {table : Table} {key : Ident} {version : Version}

/-- A symbol that a lookup comes across belongs to a visible record. -/
theorem exists_visible (h : Tracks ledger table.levels) {level : Nat} {s : Symbol Ident}
    (hlevel : level ∈ eligibleLevels version table.current)
    (hat : table.levels.at? level key = some s) :
    ∃ r, ledger.Visible key version r ∧ r.level = level ∧ r.symbol = s := by
  obtain ⟨r, hr, hlive, hl, hk, hs⟩ := (h.stands level key s).mp hat
  have hsees := ((table.mem_eligibleLevels_current version level).mp hlevel).2
  exact ⟨r, ⟨hr, hlive, hk, hl ▸ hsees⟩, hl, hs⟩

/-- A lookup comes across every visible record, unless it ends before. -/
theorem at?_of_visible (h : Tracks ledger table.levels) {r : Record}
    (hr : ledger.Visible key version r) :
    r.level ∈ eligibleLevels version table.current ∧
      table.levels.at? r.level key = some r.symbol := by
  obtain ⟨hmem, hlive, hk, hsees⟩ := hr
  have hat := (h.stands r.level key r.symbol).mpr ⟨r, hmem, hlive, rfl, hk, rfl⟩
  exact ⟨(table.mem_eligibleLevels_current version r.level).mpr
    ⟨Levels.lt_count_of_at? hat, hsees⟩, hat⟩

theorem isSome_find?_iff (h : Tracks ledger table.levels) :
    (table.find? key version).isSome ↔ ∃ r, ledger.Visible key version r := by
  constructor
  · intro hsome
    obtain ⟨hit, hhit⟩ := Option.isSome_iff_exists.mp hsome
    obtain ⟨hlevel, hat, _⟩ := Levels.find?_eq_some_iff.mp (Table.find?_eq_some_iff.mp hhit).1
    obtain ⟨r, hr, _⟩ := h.exists_visible hlevel hat
    exact ⟨r, hr⟩
  · rintro ⟨r, hr⟩
    obtain ⟨hlevel, hat⟩ := h.at?_of_visible hr
    cases hfind : table.find? key version with
    | some hit => rfl
    | none =>
        have hnone := Levels.find?_eq_none_iff.mp (Option.map_eq_none_iff.mp hfind) r.level hlevel
        rw [hat] at hnone
        cases hnone

/-- What a lookup finds is the visible record at the greatest level. -/
theorem exists_visible_of_find? (h : Tracks ledger table.levels) {hit : Hit}
    (hfind : table.find? key version = some hit) :
    ∃ r, ledger.Visible key version r ∧ hit.symbol = r.symbol ∧ hit.symbol.id = r.id ∧
      hit.level = r.level ∧ ∀ other, ledger.Visible key version other → other.level ≤ r.level := by
  obtain ⟨hlevel, hat, habove⟩ :=
    Levels.find?_eq_some_iff.mp (Table.find?_eq_some_iff.mp hfind).1
  obtain ⟨r, hr, hl, hs⟩ := h.exists_visible hlevel hat
  refine ⟨r, hr, hs.symm, ?_, hl.symm, ?_⟩
  · rw [← hs]
    exact h.consistent.identified r hr.1
  · intro other hother
    obtain ⟨hlevel', hat'⟩ := h.at?_of_visible hother
    apply Nat.le_of_not_lt
    intro hlt
    rw [habove other.level hlevel' (hl ▸ hlt)] at hat'
    cases hat'

end Tracks

/-- Lexical scoping with tiers. After any run from a fresh table, a lookup finds
something exactly if the ledger has a visible record, and then it is the symbol of
the visible record at the greatest level. No two live records share a level and a
key, a lookup visits only levels that there are, and the innermost level lies as far
above the tiers as the run has scopes open. -/
theorem find?_after_eq_greatest_visible (pool : Pool) (actions : List (Action Ident))
    (key : Ident) (version : Version) :
    let table := (Table.ofPool pool).after actions
    let ledger := Ledger.blank.through (Table.ofPool pool) actions
    ((table.find? key version).isSome ↔ ∃ r, ledger.Visible key version r) ∧
    (∀ hit, table.find? key version = some hit →
      (∃ r, ledger.Visible key version r ∧ hit.symbol = r.symbol ∧ hit.symbol.id = r.id ∧
        hit.level = r.level ∧
        ∀ other, ledger.Visible key version other → other.level ≤ r.level) ∧
      (hit.isBuiltin = true ↔ hit.level ≤ 2) ∧
      (hit.isSameScope = true ↔ hit.level = table.current)) ∧
    (ledger.records.Pairwise fun r other =>
      ledger.Live r → ledger.Live other → r.key = other.key → r.level ≠ other.level) ∧
    (∀ level ∈ eligibleLevels version table.current, level < table.levels.count) ∧
    (∀ r ∈ ledger.records, ledger.Live r → r.level < table.levels.count) ∧
    table.current = lastTierLevel + ledger.running.length := by
  intro table ledger
  have h : Tracks ledger table.levels := by
    have hfresh : Tracks .blank (Table.ofPool pool).levels := Tracks.blank
    exact hfresh.through actions
  refine ⟨h.isSome_find?_iff, ?_, h.alone, ?_, ?_, Levels.current_eq_of_count_eq h.count⟩
  · intro hit hfind
    obtain ⟨_, hbuiltin, hscope⟩ := Table.find?_eq_some_iff.mp hfind
    refine ⟨h.exists_visible_of_find? hfind, ?_, ?_⟩
    · rw [hbuiltin, decide_eq_true_iff]
      rfl
    · rw [hscope, decide_eq_true_iff]
  · intro level hlevel
    exact ((table.mem_eligibleLevels_current version level).mp hlevel).1
  · intro r hr hlive
    have hat := (h.stands r.level r.key r.symbol).mpr ⟨r, hr, hlive, rfl, rfl, rfl⟩
    exact Levels.lt_count_of_at? hat

end ShaderScope
