import Mathlib.Data.List.Basic
import ShaderScope.Proofs.Effects
import ShaderScope.Proofs.Lookups

/-!
# Recorded names

A scope keeps the plain names of its functions beside the symbols themselves. The
two are stored one after the other and never come apart: the recorded names are
those of the functions that the scope has, whatever is declared, refused, copied or
changed in place.
-/

namespace ShaderScope

namespace Scope

variable {ν : Type} [DecidableEq ν] {scope : Scope ν}

/-- The recorded names are those of the functions that the scope has. -/
def RecordsFunctions (scope : Scope ν) : Prop :=
  ∀ name, scope.hasFunction name = true ↔
    ∃ s ∈ scope.symbols, s.isFunction = true ∧ s.name = name

theorem recordsFunctions_empty : (empty : Scope ν).RecordsFunctions := by
  intro name
  simp [hasFunction, symbols, empty]

/-- An accepted declaration adds its symbol, and the name of a function. -/
theorem RecordsFunctions.declare (h : scope.RecordsFunctions) {key : ν} {symbol : Symbol ν}
    {after : Scope ν} (hdeclare : scope.declare key symbol = .ok after) :
    after.RecordsFunctions := by
  unfold Scope.declare at hdeclare
  cases hfind : scope.find? key with
  | some existing =>
      rw [insert_of_find? hfind] at hdeclare
      cases hdeclare
  | none =>
      rw [insert_of_free hfind] at hdeclare
      cases hdeclare
      intro name
      have hold := h name
      cases hfunction : symbol.isFunction with
      | true =>
          have hmark := hasFunction_markFunction (scope.store key symbol hfind) symbol.name name
          change (markFunction _ _).hasFunction name = true ↔
            ∃ s ∈ symbol :: scope.symbols, _
          rw [hmark, Bool.or_eq_true, beq_iff_eq, List.exists_mem_cons_iff]
          exact or_congr (by simp [hfunction, eq_comm]) hold
      | false =>
          change scope.hasFunction name = true ↔ ∃ s ∈ symbol :: scope.symbols, _
          rw [List.exists_mem_cons_iff, hold]
          simp [hfunction]

/-- A change in place that keeps the name of a symbol, and whether it is a function,
keeps the records. -/
theorem RecordsFunctions.modify (h : scope.RecordsFunctions) (key : ν)
    {change : Symbol ν → Symbol ν} (hfunction : ∀ s, (change s).isFunction = s.isFunction)
    (hname : ∀ s, (change s).name = s.name) : (scope.modify key change).RecordsFunctions := by
  intro name
  have hsymbols : (scope.modify key change).symbols =
      scope.entries.map (fun entry => if entry.1 = key then change entry.2 else entry.2) := by
    unfold symbols Scope.modify
    rw [List.map_map]
    apply List.map_congr_left
    rintro ⟨k, s⟩ _
    by_cases hk : k = key <;> simp [hk]
  have hentry : ∀ entry : ν × Symbol ν,
      ((if entry.1 = key then change entry.2 else entry.2).isFunction = true ∧
        (if entry.1 = key then change entry.2 else entry.2).name = name) ↔
      (entry.2.isFunction = true ∧ entry.2.name = name) := by
    intro entry
    split
    · rw [hfunction, hname]
    · exact Iff.rfl
  rw [hsymbols]
  refine (h name).trans ?_
  simp only [symbols, List.mem_map, exists_exists_and_eq_and, hentry]

end Scope

namespace Levels

variable {ν : Type} [DecidableEq ν] {levels : Levels ν}

/-- Every scope records its functions. -/
def RecordFunctions (levels : Levels ν) : Prop :=
  ∀ level scope, levels.scope? level = some scope → scope.RecordsFunctions

theorem recordFunctions_fresh : (fresh : Levels ν).RecordFunctions := by
  intro level scope hscope
  have hmem : scope ∈ (#[.empty, .empty, .empty] : Array (Scope ν)) :=
    Array.mem_of_getElem? hscope
  have hempty : scope = .empty := by simpa using hmem
  rw [hempty]
  exact Scope.recordsFunctions_empty

theorem RecordFunctions.push (h : levels.RecordFunctions) : levels.push.RecordFunctions := by
  intro level scope hscope
  rw [scope?_push] at hscope
  split at hscope
  · cases hscope
    exact Scope.recordsFunctions_empty
  · exact h level scope hscope

theorem RecordFunctions.pop? (h : levels.RecordFunctions) {outer : Levels ν}
    (hpop : levels.pop? = some outer) : outer.RecordFunctions := by
  intro level scope hscope
  rw [(pop?_eq_some hpop).2] at hscope
  split at hscope
  · exact h level scope hscope
  · cases hscope

theorem RecordFunctions.set (h : levels.RecordFunctions) {level : Nat}
    (hlevel : level < levels.scopes.size) {scope : Scope ν} (hscope : scope.RecordsFunctions) :
    (levels.set level scope hlevel).RecordFunctions := by
  intro other found hfound
  rw [scope?_set] at hfound
  split at hfound
  · cases hfound
    exact hscope
  · exact h other found hfound

theorem RecordFunctions.declare (h : levels.RecordFunctions) {level : Nat}
    {hlevel : level < levels.scopes.size} {key : ν} {symbol : Symbol ν} {after : Levels ν}
    (hdeclare : levels.declare level hlevel key symbol = .ok after) : after.RecordFunctions := by
  unfold Levels.declare at hdeclare
  cases hscope : levels.scopes[level].declare key symbol with
  | error rejection =>
      rw [hscope] at hdeclare
      cases hdeclare
  | ok scope =>
      rw [hscope] at hdeclare
      cases hdeclare
      exact h.set hlevel ((h level _ (levels.scope?_eq_some hlevel)).declare hscope)

theorem RecordFunctions.modifyCurrent (h : levels.RecordFunctions) (key : ν)
    {change : Symbol ν → Symbol ν} (hfunction : ∀ s, (change s).isFunction = s.isFunction)
    (hname : ∀ s, (change s).name = s.name) :
    (levels.modifyCurrent key change).RecordFunctions :=
  h.set levels.current_lt
    ((h levels.current _ (levels.scope?_eq_some levels.current_lt)).modify key hfunction hname)

/-- A name is recorded at a level exactly if the level holds a function of that name. -/
theorem RecordFunctions.hasFunctionAt_iff (h : levels.RecordFunctions) (level : Nat) (name : ν) :
    levels.hasFunctionAt level name = true ↔
      ∃ s, levels.Holds level s ∧ s.isFunction = true ∧ s.name = name := by
  unfold hasFunctionAt Holds
  cases hscope : levels.scope? level with
  | none => simp
  | some scope =>
      rw [Option.any_some, h level scope hscope name]
      simp

end Levels

namespace Table

variable {table after : Table} {action : Action Ident}

/-- One step of the induction over runs. -/
theorem recordFunctions_of_effect {outcome : Outcome Ident}
    (h : table.levels.RecordFunctions) (heffect : table.Effect action outcome after) :
    after.levels.RecordFunctions := by
  cases heffect with
  | opened => exact h.push
  | closed hpop => exact h.pop? hpop
  | stored hattempt hdeclare => exact h.declare hdeclare
  | @edited key edits symbol hat =>
      exact h.modifyCurrent key (fun s => s.isFunction_editAll edits)
        (fun s => s.name_editAll edits)
  | _ => exact h

theorem recordFunctions_after {actions : List (Action Ident)}
    (h : table.levels.RecordFunctions) : (table.after actions).levels.RecordFunctions := by
  induction actions generalizing table with
  | nil => exact h
  | cons action rest ih =>
      rw [after_cons]
      exact ih (recordFunctions_of_effect h (table.effect_perform action))

/-- A built-in function is visible exactly if a tier that its version sees holds one. -/
theorem hasBuiltinFunction_iff (h : table.levels.RecordFunctions) (name : Ident)
    (version : Version) :
    table.hasBuiltinFunction name version = true ↔
      ∃ level ≤ lastTierLevel, version.Sees level ∧
        ∃ s, table.levels.Holds level s ∧ s.isFunction = true ∧ s.name = name := by
  change (eligibleLevels version lastTierLevel).any
    (fun level => table.levels.hasFunctionAt level name) = true ↔ _
  simp only [List.any_eq_true, mem_eligibleLevels_iff_sees, h.hasFunctionAt_iff, and_assoc]

end Table

end ShaderScope
