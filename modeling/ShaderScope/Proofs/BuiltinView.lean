import ShaderScope.Proofs.ClosedScopes

/-!
# The view on the tiers

A lookup that starts in the tiers sees no scope. What is done while a scope is open
reaches no level below the innermost one, and so no tier, unless it declares something
in a tier. A lookup from the innermost level agrees with the view on the tiers
wherever no scope has the key.
-/

namespace ShaderScope

/-- The step declares nothing in a tier. -/
def Step.LeavesTiers : Step → Prop
  | .act (.declareBuiltin ..) => False
  | _ => True

namespace Table

variable {table : Table}

/-- Nothing below the innermost level changes. -/
theorem scope?_of_effect {after : Table} {action : Action Ident} {outcome : Outcome Ident}
    (heffect : table.Effect action outcome after) (haction : (Step.act action).LeavesTiers)
    {level : Nat} (hlevel : level < table.current) :
    after.levels.scope? level = table.levels.scope? level := by
  have hcurrent : table.current + 1 = table.levels.count := table.levels.current_add_one
  cases heffect with
  | opened => rw [openScope, Levels.scope?_push, if_neg (by omega)]
  | closed hpop =>
      obtain ⟨hcount, hscope⟩ := Levels.pop?_eq_some hpop
      rw [hscope, if_pos (by omega)]
  | stored hattempt hdeclare =>
      rcases level_cases_of_attempt? hattempt with hat | ⟨tier, name, d, rfl, _⟩
      · obtain ⟨scope, rfl⟩ := Levels.exists_set_of_declare hdeclare
        rw [Levels.scope?_set, if_neg (by omega)]
      · cases haction
  | edited hat => exact table.levels.scope?_modifyCurrent_of_lt _ _ hlevel
  | _ => rfl

theorem scope?_step_of_lt_current {step : Step} (hstep : step.LeavesTiers) {level : Nat}
    (hlevel : level < table.current) :
    (table.step step).levels.scope? level = table.levels.scope? level := by
  cases step with
  | act action => exact scope?_of_effect (table.effect_perform action) hstep hlevel
  | alter key change => exact table.levels.scope?_modifyCurrent_of_lt key change hlevel

/-- What the tiers answer depends on the scopes of the tiers. -/
theorem builtins_eq_of_scope? {before : Table}
    (h : ∀ level ≤ lastTierLevel, table.levels.scope? level = before.levels.scope? level)
    (key name : Ident) (version : Version) :
    table.findBuiltin? key version = before.findBuiltin? key version ∧
      table.hasBuiltinFunction name version = before.hasBuiltinFunction name version := by
  have hvisited : ∀ level ∈ eligibleLevels version lastTierLevel,
      table.levels.scope? level = before.levels.scope? level :=
    fun level hlevel => h level ((mem_eligibleLevels version _ level).mp hlevel).1
  constructor
  · refine congrArg (Option.map Prod.snd) (Levels.find?_congr fun level hlevel => ?_)
    rw [Levels.at?, Levels.at?, hvisited level hlevel]
  · refine Levels.tiersHaveFunction_congr fun level hlevel => ?_
    rw [Levels.hasFunctionAt, Levels.hasFunctionAt, hvisited level hlevel]

/-- A scope is open before every step of a run, and no step declares in a tier. -/
def StaysInScopes (table : Table) : List Step → Prop
  | [] => True
  | step :: rest =>
      lastTierLevel < table.current ∧ step.LeavesTiers ∧ (table.step step).StaysInScopes rest

theorem scope?_afterSteps_of_staysInScopes {steps : List Step} (hrun : table.StaysInScopes steps)
    {level : Nat} (hlevel : level ≤ lastTierLevel) :
    (table.afterSteps steps).levels.scope? level = table.levels.scope? level := by
  induction steps generalizing table with
  | nil => rfl
  | cons step rest ih =>
      obtain ⟨hopen, hstep, hrest⟩ := hrun
      rw [afterSteps_cons]
      calc
        ((table.step step).afterSteps rest).levels.scope? level =
            (table.step step).levels.scope? level := ih hrest
        _ = table.levels.scope? level :=
          scope?_step_of_lt_current hstep (Nat.lt_of_le_of_lt hlevel hopen)

/-- Steps that stay inside a scope are met with that scope open. -/
theorem staysInScopes_of_onTopOf {outer : Table} {steps : List Step} {depth next : Nat}
    (h : OnTopOf outer (depth + 1) table)
    (hdepth : steps.foldlM Step.depthAfter? depth = some next) : table.StaysInScopes steps := by
  induction steps generalizing table depth with
  | nil => trivial
  | cons step rest ih =>
      rw [List.foldlM_cons] at hdepth
      obtain ⟨between, hstep, hrest⟩ := Option.bind_eq_some_iff.mp hdepth
      refine ⟨?_, ?_, ih (h.step hstep) hrest⟩
      · have hcount := h.count
        have htiers := outer.levels.globalLevel_le_count
        have hcurrent : table.current + 1 = table.levels.count := table.levels.current_add_one
        have hglobal : globalLevel = lastTierLevel + 1 := rfl
        omega
      · unfold Step.LeavesTiers
        split
        · cases hstep
        · trivial

/-- Whatever stands in a scope is visited by a lookup, for every version. -/
theorem mem_eligibleLevels_of_at? {key : Ident} {level : Nat} {s : Symbol Ident}
    (hscope : globalLevel ≤ level) (hat : table.levels.at? level key = some s)
    (version : Version) : level ∈ eligibleLevels version table.current := by
  have hglobal : globalLevel = 3 := rfl
  have hcurrent : table.current + 1 = table.levels.count := table.levels.current_add_one
  have hcount := Levels.lt_count_of_at? hat
  refine mem_eligibleLevels_iff_sees.mpr ⟨by omega, ?_⟩
  constructor
  · omega
  · omega

/-- A key that a scope has is found in the greatest scope that has it. -/
theorem exists_find?_of_scope {key : Ident} {level : Nat} {s : Symbol Ident}
    (hscope : globalLevel ≤ level) (hat : table.levels.at? level key = some s)
    (version : Version) :
    ∃ level s, globalLevel ≤ level ∧ table.levels.at? level key = some s ∧
      (∀ other, level < other → table.levels.at? other key = none) ∧
      table.find? key version = some ⟨s, level, false, decide (level = table.current)⟩ := by
  have hvisited := mem_eligibleLevels_of_at? hscope hat version
  cases hfind : table.find? key version with
  | none =>
      have hmiss := Levels.find?_eq_none_iff.mp (Option.map_eq_none_iff.mp hfind) level hvisited
      rw [hat] at hmiss
      cases hmiss
  | some hit =>
      obtain ⟨hfound, hbuiltin, hsame⟩ := find?_eq_some_iff.mp hfind
      obtain ⟨_, hhit, habove⟩ := Levels.find?_eq_some_iff.mp hfound
      -- The level that was asked about is visited, so the hit is no lower.
      have hle : level ≤ hit.level := by
        apply Nat.le_of_not_lt
        intro hlt
        rw [habove level hvisited hlt] at hat
        cases hat
      have hglobal : globalLevel = lastTierLevel + 1 := rfl
      refine ⟨hit.level, hit.symbol, Nat.le_trans hscope hle, hhit, ?_, ?_⟩
      · intro other hother
        cases hrest : table.levels.at? other key with
        | none => rfl
        | some t =>
            have hvisits := mem_eligibleLevels_of_at? (by omega) hrest version
            rw [← hrest]
            exact habove other hvisits hother
      · have hscoped : ¬ hit.level ≤ lastTierLevel := by omega
        obtain ⟨symbol, place, isBuiltin, isSameScope⟩ := hit
        simp only at hbuiltin hsame hscoped
        rw [hbuiltin, hsame, decide_eq_false hscoped]

/-- A key that no scope has is found as the view on the tiers shows it. -/
theorem find?_of_no_scope {key : Ident}
    (hnone : ∀ level, globalLevel ≤ level → table.levels.at? level key = none)
    (version : Version) :
    (table.find? key version).map Hit.symbol = table.findBuiltin? key version ∧
      ∀ hit, table.find? key version = some hit → hit.isBuiltin = true := by
  have hcurrent : table.current + 1 = table.levels.count := table.levels.current_add_one
  have hglobal : globalLevel = lastTierLevel + 1 := rfl
  have htiers := table.levels.globalLevel_le_count
  have hfind : table.levels.find? table.current version key =
      table.levels.find? lastTierLevel version key :=
    Levels.find?_eq_find?_tiers (by omega) hnone
  constructor
  · rw [find?, findBuiltin?, hfind, Option.map_map]
    rfl
  · intro hit hhit
    obtain ⟨hfound, hbuiltin, _⟩ := find?_eq_some_iff.mp hhit
    rw [hfind] at hfound
    have hlevel := (Levels.find?_eq_some_iff.mp hfound).1
    rw [hbuiltin]
    exact decide_eq_true ((mem_eligibleLevels version _ _).mp hlevel).1

end Table

/-- The view on the tiers is isolated from scopes, and lookups agree with it. After any
run, steps that are taken while a scope is open and that declare nothing in a tier leave
all answers about the tiers as they are. A lookup finds the symbol of the greatest scope
that has its key, and where no scope has it, it finds what the view on the tiers shows. -/
theorem builtin_view_isolated_and_agrees (pool : Pool) (before : List Step) (key name : Ident)
    (version : Version) :
    let table := (Table.ofPool pool).afterSteps before
    (∀ steps, table.StaysInScopes steps →
      (table.afterSteps steps).findBuiltin? key version = table.findBuiltin? key version ∧
      (table.afterSteps steps).hasBuiltinFunction name version =
        table.hasBuiltinFunction name version) ∧
    ((∃ level s, 3 ≤ level ∧ table.levels.at? level key = some s ∧
        (∀ other, level < other → table.levels.at? other key = none) ∧
        table.find? key version = some ⟨s, level, false, decide (level = table.current)⟩) ∨
      ((∀ level, 3 ≤ level → table.levels.at? level key = none) ∧
        (table.find? key version).map Hit.symbol = table.findBuiltin? key version ∧
        ∀ hit, table.find? key version = some hit → hit.isBuiltin = true)) := by
  intro table
  constructor
  · intro steps hrun
    exact Table.builtins_eq_of_scope?
      (fun level hlevel => Table.scope?_afterSteps_of_staysInScopes hrun hlevel) key name version
  · by_cases hnone : ∀ level, globalLevel ≤ level → table.levels.at? level key = none
    · exact .inr ⟨hnone, Table.find?_of_no_scope hnone version⟩
    · obtain ⟨level, hscope, hat⟩ : ∃ level, globalLevel ≤ level ∧
          table.levels.at? level key ≠ none := by simpa using hnone
      obtain ⟨s, hs⟩ := Option.ne_none_iff_exists'.mp hat
      exact .inl (Table.exists_find?_of_scope hscope hs version)

/-- A built-in is seen as before after a copy of it has been placed into a scope and
changed there. -/
theorem builtin_seen_beside_changed_copy :
    let x := Pool.blank.intern "x"
    let before := [Step.act (.builtinVariable .common "x" (Ty.scalar .float)), Step.act .openScope]
    let steps := [Step.act (.rebind x.1 .essl300),
      Step.alter x.1 (fun s => s.edit (.resolveLength 4)), Step.act .openScope,
      Step.act .closeScope]
    let table := (Table.ofPool Pool.blank).afterSteps before
    table.StaysInScopes steps ∧
      (table.afterSteps steps).findBuiltin? x.1 .essl300 = table.findBuiltin? x.1 .essl300 := by
  intro x before steps table
  have hinside : StaysInside steps := rfl
  have hrun : table.StaysInScopes steps :=
    Table.staysInScopes_of_onTopOf (OnTopOf.refl _).push hinside
  exact ⟨hrun, ((builtin_view_isolated_and_agrees Pool.blank before x.1 x.1 .essl300).1
    steps hrun).1⟩

end ShaderScope
