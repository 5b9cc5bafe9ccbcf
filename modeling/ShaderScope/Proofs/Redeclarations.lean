import ShaderScope.Proofs.Overloads
import ShaderScope.Proofs.SameAnswers

/-!
# Redeclarations

A level refuses a declaration for a key that is taken. Where every key stands for
what its symbol has to stand for, this comes down to names and types: a name that is
no function's is refused for such a name, and a function is refused for a function of
the same name with equal parameter types.
-/

namespace ShaderScope

/-! ## Runs that keep keys -/

/-- A proper action, or a change that leaves the name of a symbol and the parameters
of a function as they are. -/
def Step.Proper (table : Table) : Step → Prop
  | .act action => action.Proper table
  | .alter key change => ∀ s, table.levels.at? table.current key = some s →
      (change s).name = s.name ∧ (change s).paramTypes? = s.paramTypes?

/-- Every step of a run is proper at the table that it meets. -/
def Table.ProperSteps (table : Table) : List Step → Prop
  | [] => True
  | step :: rest => step.Proper table ∧ (table.step step).ProperSteps rest

namespace Table

variable {table : Table}

theorem keyed_step (h : Keyed table.pool table.levels) {step : Step}
    (hstep : step.Proper table) : Keyed (table.step step).pool (table.step step).levels := by
  cases step with
  | act action => exact keyed_of_effect h hstep (table.effect_perform action)
  | alter key change =>
      refine Levels.EveryStored.modifyCurrent h ?_
      intro s hat hkeyed
      obtain ⟨hname, htypes⟩ := hstep s hat
      exact hkeyed.of_eq hname htypes

theorem keyed_afterSteps {steps : List Step} (h : Keyed table.pool table.levels)
    (hrun : table.ProperSteps steps) :
    Keyed (table.afterSteps steps).pool (table.afterSteps steps).levels := by
  induction steps generalizing table with
  | nil => exact h
  | cons step rest ih =>
      rw [afterSteps_cons]
      exact ih (keyed_step h hrun.1) hrun.2

end Table

/-! ## What a declaration repeats -/

/-- Two declarations of one name cannot stand in one level: functions with equal
parameter types, and any two that are no functions. -/
def Declaration.Clashes : Declaration Ident → Declaration Ident → Prop
  | .func f, .func g => List.Forall₂ (fun t u => t.same u = true) f.paramTypes g.paramTypes
  | .func _, _ => False
  | _, .func _ => False
  | _, _ => True

namespace Declaration

theorem clashes_func_iff {d : Declaration Ident} {g : Function Ident} :
    d.Clashes (.func g) ↔ ∃ f, d = .func f ∧
      List.Forall₂ (fun t u => t.same u = true) f.paramTypes g.paramTypes := by
  cases d with
  | func f => simp [Clashes]
  | var v => simp [Clashes]
  | typeName e => simp [Clashes]

theorem clashes_iff_of_not_isFunction {d e : Declaration Ident} (h : e.isFunction = false) :
    d.Clashes e ↔ d.isFunction = false := by
  cases e with
  | func g => cases h
  | var v => cases d <;> simp [Clashes, isFunction]
  | typeName f => cases d <;> simp [Clashes, isFunction]

end Declaration

/-- A symbol of the level that a declaration of the name would repeat. -/
def Table.Repeats (table : Table) (level : Nat) (name : Ident) (d : Declaration Ident)
    (s : Symbol Ident) : Prop :=
  table.levels.Holds level s ∧ s.name = name ∧ s.declaration.Clashes d

namespace Table

variable {table : Table}

/-- Under a word stands what bears it as a name and is no function. -/
theorem at?_name_iff (h : Keyed table.pool table.levels) {name : Ident}
    (hname : table.pool.Names name) (level : Nat) (s : Symbol Ident) :
    table.levels.at? level name = some s ↔
      table.levels.Holds level s ∧ s.name = name ∧ s.isFunction = false := by
  constructor
  · intro hat
    obtain ⟨hproper, htext⟩ := h level name s hat
    have hword : s.keyText table.pool.text = table.pool.text name :=
      (Pool.text_of_text? htext).symm
    cases htypes : s.paramTypes? with
    | some types =>
        rw [Symbol.keyText_of_some htypes] at hword
        exact absurd (hword ▸ hname.isWord) (not_isWord_signature _ _ _)
    | none =>
        rw [Symbol.keyText_of_none htypes] at hword
        exact ⟨Levels.holds_iff.mpr ⟨name, hat⟩,
          Pool.text_inj hproper.named.issued hname.issued hword,
          Symbol.paramTypes?_eq_none_iff.mp htypes⟩
  · rintro ⟨hholds, rfl, hfunction⟩
    obtain ⟨key, hat⟩ := Levels.holds_iff.mp hholds
    have htext := (h level key s hat).text?_key
    rw [Symbol.keyText_of_none (Symbol.paramTypes?_eq_none_iff.mpr hfunction)] at htext
    have hkey : key = s.name :=
      (Pool.eq_iff_of_text? htext (Pool.text?_of_issued hname.issued)).mpr rfl
    rw [← hkey]
    exact hat

/-- What a declaration would repeat is what stands under the key that it tries to take. -/
theorem repeats_iff_at? (h : Keyed table.pool table.levels) {attempt : Attempt table}
    (hgrows : table.pool.Grows attempt.keyed) (hproper : attempt.symbol.Proper attempt.pool)
    (s : Symbol Ident) :
    table.Repeats attempt.level attempt.symbol.name attempt.symbol.declaration s ↔
      table.levels.at? attempt.level attempt.key = some s := by
  -- All names are read with the pool that has the key in it.
  let known : Table := { table with pool := attempt.keyed }
  have hkeyed : Keyed known.pool known.levels :=
    fun level key s hat => (h level key s hat).mono hgrows
  have hmade : attempt.pool.Grows known.pool := attempt.symbol.levelKey_grows attempt.pool
  have hknown : attempt.symbol.Proper known.pool := hproper.mono hmade
  have htext : known.pool.text? attempt.key = some (attempt.symbol.keyText known.pool.text) := by
    rw [hproper.keyText_of_grows hmade]
    exact Symbol.text?_levelKey hproper.named.issued
  cases htypes : attempt.symbol.paramTypes? with
  | some types =>
      obtain ⟨g, hg, rfl⟩ := Symbol.paramTypes?_eq_some_iff.mp htypes
      rw [Symbol.keyText_of_some htypes] at htext
      have hoffers := offers_iff_at? hkeyed hknown.named (hknown.complete _ htypes) htext
        attempt.level s
      rw [← hoffers, Repeats, hg, Declaration.clashes_func_iff]
      rfl
  | none =>
      rw [Symbol.keyText_of_none htypes] at htext
      have hkey : attempt.key = attempt.symbol.name :=
        (Pool.eq_iff_of_text? htext (Pool.text?_of_issued hknown.named.issued)).mpr rfl
      have hplain := at?_name_iff hkeyed hknown.named attempt.level s
      rw [hkey, hplain, Repeats,
        Declaration.clashes_iff_of_not_isFunction (Symbol.paramTypes?_eq_none_iff.mp htypes)]
      rfl

/-- The answer to a declaration is a rejection exactly if the level has a symbol that
the declaration would repeat. There is only one such symbol, and the rejection tells
its identity. -/
def RejectsRepeats (table : Table) (level : Nat) (name : Ident) (d : Declaration Ident)
    (answer : Except (Rejection Ident) SymbolId) : Prop :=
  ((∃ rejection, answer = .error rejection) ↔ ∃ s, table.Repeats level name d s) ∧
    ∀ s, table.Repeats level name d s →
      answer = .error (.redeclared name s.id) ∧ ∀ other, table.Repeats level name d other → other = s

theorem rejectsRepeats_of_attempt? (h : Keyed table.pool table.levels) {action : Action Ident}
    (haction : action.Proper table) {attempt : Attempt table}
    (hattempt : table.attempt? action = some attempt)
    {answer : Except (Rejection Ident) SymbolId}
    (hanswer : (table.perform action).1 = .declared answer) :
    table.RejectsRepeats attempt.level attempt.symbol.name attempt.symbol.declaration answer := by
  have heffect := table.effect_perform action
  have hrepeats := repeats_iff_at? h (grows_of_attempt? hattempt)
    (proper_of_attempt? h haction hattempt)
  rw [hanswer] at heffect
  simp only [RejectsRepeats, hrepeats]
  refine ⟨⟨?_, ?_⟩, ?_⟩
  · rintro ⟨rejection, rfl⟩
    cases hplace : table.levels.at? attempt.level attempt.key with
    | some existing => exact ⟨existing, rfl⟩
    | none =>
        cases (accepted_of_free heffect hattempt hplace).1
  · rintro ⟨s, hs⟩
    cases (refused_of_taken heffect hattempt hs).1
    exact ⟨_, rfl⟩
  · intro s hs
    cases (refused_of_taken heffect hattempt hs).1
    refine ⟨rfl, ?_⟩
    intro other hother
    rw [hs] at hother
    exact (Option.some.inj hother).symm

end Table

/-- Declarations are rejected exactly for true redeclarations. After any run that
declares words, with parameters that can be read back, and adds no parameter to a
stored function, a declaration is rejected exactly if it repeats a symbol of the level
where it is to be stored: the innermost one, or that of a tier. -/
theorem declaration_rejected_iff_repeats {pool : Pool} {steps : List Step}
    (hrun : (Table.ofPool pool).ProperSteps steps) :
    let table := (Table.ofPool pool).afterSteps steps
    (∀ name d, table.pool.Names name → d.Proper table.pool →
      table.RejectsRepeats table.current name d (table.declare name d).1) ∧
    ∀ tier word d, IsWord word → d.Proper table.pool →
      table.RejectsRepeats tier.level (table.pool.intern word).1 d
        (table.declareBuiltin tier word d).1 := by
  intro table
  have hkeyed : Keyed table.pool table.levels :=
    Table.keyed_afterSteps (Levels.EveryStored.fresh _) hrun
  constructor
  · intro name d hname hd
    have haction : (Action.declare name d).Proper table := ⟨hname, hd⟩
    exact Table.rejectsRepeats_of_attempt? hkeyed haction rfl rfl
  · intro tier word d hword hd
    have haction : (Action.declareBuiltin tier word d).Proper table := ⟨hword, hd⟩
    exact Table.rejectsRepeats_of_attempt? hkeyed haction rfl rfl

/-- A function is rejected in the scope that has one of its name and parameter type,
whatever the two results are. -/
theorem function_rejected_for_other_result :
    let f := Pool.blank.intern "f"
    let float : Ty Ident := Ty.scalar .float
    let steps := [Step.act .openScope,
      Step.act (.declare f.1 (.prototype (Ty.scalar .void) [float]))]
    let table := (Table.ofPool f.2).afterSteps steps
    ((Table.ofPool f.2).ProperSteps steps ∧ table.pool.Names f.1) ∧
      (table.declare f.1 (.prototype float [float])).1 = .error (.redeclared f.1 ⟨1⟩) := by
  intro f float steps table
  have hfloat : ∀ (pool : Pool) (result : Ty Ident),
      (Declaration.prototype result [float]).Proper pool := by
    intro pool result types htypes t ht
    cases htypes
    rw [List.mem_singleton.mp ht]
    exact Ty.complete_of_plain rfl (by decide) (by decide) (by decide)
  have hname : f.2.Names f.1 := Pool.names_intern Pool.blank (by decide)
  have hrun : (Table.ofPool f.2).ProperSteps steps := ⟨trivial, ⟨hname, hfloat _ _⟩, trivial⟩
  have hgrown : table.pool.Names f.1 := hname.mono (Table.grows_afterSteps _ steps)
  -- The first declaration finds its scope empty.
  let opened := (Table.ofPool f.2).openScope
  let symbol : Symbol Ident := ⟨opened.nextId, f.1, .prototype (Ty.scalar .void) [float]⟩
  let attempt : Attempt opened := ⟨f.2, opened.current, opened.current_lt, symbol⟩
  have hfree : opened.levels.at? attempt.level attempt.key = none := by
    change (Table.ofPool f.2).levels.push.at? _ _ = none
    rw [Levels.at?_push]
    exact Levels.at?_fresh _ _
  have hattempt : opened.attempt? (.declare f.1 (.prototype (Ty.scalar .void) [float])) =
      some attempt := rfl
  obtain ⟨_, _, hat⟩ := Table.accepted_of_free (opened.effect_perform _) hattempt hfree
  have hcurrent : table.current = attempt.level := rfl
  have hrepeats : table.Repeats table.current f.1 (.prototype float [float]) symbol := by
    refine ⟨?_, rfl, ?_⟩
    · rw [hcurrent]
      exact Levels.holds_iff.mpr ⟨_, hat⟩
    · have hsame : float.same float = true := by
        simp [float, Ty.same, Base.same, Ty.scalar, Ty.ofKind]
      exact .cons hsame .nil
  have hrejects := (declaration_rejected_iff_repeats hrun).1 f.1 _ hgrown (hfloat _ float)
  exact ⟨⟨hrun, hgrown⟩, (hrejects.2 symbol hrepeats).1⟩

end ShaderScope
