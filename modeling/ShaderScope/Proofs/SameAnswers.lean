import ShaderScope.Proofs.Keys
import ShaderScope.Proofs.Lookups

/-!
# Tables that answer alike

The answers of a table depend on its levels, its defaults and, for calls, on which
signatures its pool knows. A pool that grows knows more signatures, but none of the
new ones is the key of a stored symbol, as long as all that was declared had been
issued. A table therefore answers as before once its levels and defaults are back,
whatever has been pooled meanwhile.
-/

namespace ShaderScope

/-! ## Steps -/

/-- A step of a run: an action, or any change at all to a symbol of the innermost
level. Lookups are no steps, because they change nothing. -/
inductive Step where
  | act (action : Action Ident)
  | alter (key : Ident) (change : Symbol Ident → Symbol Ident)

/-- What a step declares by an identifier has been issued, and so has the name that
it gives to a symbol. -/
def Step.Issued (pool : Pool) : Step → Prop
  | .act (.declare name _) => pool.Issued name
  | .act _ => True
  | .alter _ change => ∀ s : Symbol Ident, pool.Issued s.name → pool.Issued (change s).name

namespace Table

/-- The table after a step. -/
def step (table : Table) : Step → Table
  | .act action => (table.perform action).2
  | .alter key change => { table with levels := table.levels.modifyCurrent key change }

/-- The table after several steps. -/
def afterSteps (table : Table) : List Step → Table
  | [] => table
  | step :: rest => (table.step step).afterSteps rest

theorem afterSteps_nil (table : Table) : table.afterSteps [] = table :=
  rfl

theorem afterSteps_cons (table : Table) (step : Step) (rest : List Step) :
    table.afterSteps (step :: rest) = (table.step step).afterSteps rest :=
  rfl

theorem afterSteps_append (table : Table) (first second : List Step) :
    table.afterSteps (first ++ second) = (table.afterSteps first).afterSteps second := by
  induction first generalizing table with
  | nil => rfl
  | cons step rest ih =>
      rw [List.cons_append, afterSteps_cons, afterSteps_cons]
      exact ih (table.step step)

theorem step_act (table : Table) (action : Action Ident) :
    table.step (.act action) = (table.perform action).2 :=
  rfl

/-- All names that the steps of a run use have been issued before. -/
def IssuedRun (table : Table) : List Step → Prop
  | [] => True
  | step :: rest => step.Issued table.pool ∧ (table.step step).IssuedRun rest

end Table

/-- The pool has issued all keys, and the names of all stored symbols. -/
def Levels.IssuedBy (pool : Pool) (levels : Levels Ident) : Prop :=
  levels.EveryStored fun key s => pool.Issued key ∧ pool.Issued s.name

namespace Table

variable {table : Table}

theorem issued_of_attempt? (h : table.levels.IssuedBy table.pool) {action : Action Ident}
    (haction : (Step.act action).Issued table.pool) {attempt : Attempt table}
    (hattempt : table.attempt? action = some attempt) :
    attempt.pool.Issued attempt.symbol.name := by
  cases action with
  | declare name declaration =>
      cases hattempt
      exact haction
  | rebind key version =>
      obtain ⟨hit, hfind, rfl⟩ := Option.map_eq_some_iff.mp hattempt
      obtain ⟨found, hfound, rfl⟩ := Option.map_eq_some_iff.mp hfind
      obtain ⟨_, hat, _⟩ := Levels.find?_eq_some_iff.mp hfound
      exact (h _ _ _ hat).2
  | declareBuiltin tier name declaration =>
      cases hattempt
      exact Pool.issued_intern table.pool name
  | _ => cases hattempt

theorem issuedBy_step (h : table.levels.IssuedBy table.pool) {step : Step}
    (hstep : step.Issued table.pool) :
    (table.step step).levels.IssuedBy (table.step step).pool := by
  cases step with
  | act action =>
      refine everyStored_of_effect (P := fun pool key s => pool.Issued key ∧ pool.Issued s.name)
        (fun hgrows hs => ⟨hs.1.mono hgrows, hs.2.mono hgrows⟩) h
        (table.effect_perform action) ?_ ?_
      · intro attempt hattempt
        have hname := issued_of_attempt? h hstep hattempt
        have hgrows := attempt.symbol.levelKey_grows attempt.pool
        exact ⟨⟨_, Symbol.text?_levelKey hname⟩, hname.mono hgrows⟩
      · intro key edits s _ _ hs
        rw [Symbol.name_editAll]
        exact hs
  | alter key change =>
      exact h.modifyCurrent fun s _ hs => ⟨hs.1, hstep s hs.2⟩

theorem issuedBy_afterSteps {steps : List Step} (h : table.levels.IssuedBy table.pool)
    (hrun : table.IssuedRun steps) :
    (table.afterSteps steps).levels.IssuedBy (table.afterSteps steps).pool := by
  induction steps generalizing table with
  | nil => exact h
  | cons step rest ih =>
      rw [afterSteps_cons]
      exact ih (issuedBy_step h hrun.1) hrun.2

theorem grows_step (table : Table) (step : Step) : table.pool.Grows (table.step step).pool := by
  cases step with
  | act action => exact grows_of_effect (table.effect_perform action)
  | alter key change => exact Pool.Grows.refl table.pool

theorem grows_afterSteps (table : Table) (steps : List Step) :
    table.pool.Grows (table.afterSteps steps).pool := by
  induction steps generalizing table with
  | nil => exact Pool.Grows.refl table.pool
  | cons step rest ih =>
      rw [afterSteps_cons]
      exact (table.grows_step step).trans (ih (table.step step))

/-! ## Answers -/

/-- Every question is answered as the table before answers it. A call is about a
name and types that the pool of the table before has issued. -/
structure AnswersAs (table before : Table) : Prop where
  find? : ∀ key version, table.find? key version = before.find? key version
  findBuiltin? : ∀ key version, table.findBuiltin? key version = before.findBuiltin? key version
  findFunction? : ∀ name args version, before.pool.Issued name →
    (∀ t ∈ args, t.Known before.pool) →
      table.findFunction? name args version = before.findFunction? name args version
  hasBuiltinFunction : ∀ name version,
    table.hasBuiltinFunction name version = before.hasBuiltinFunction name version
  symbol? : ∀ id scan, table.symbol? id scan = before.symbol? id scan
  defaultPrecision : ∀ kind, table.defaultPrecision kind = before.defaultPrecision kind

theorem find?_of_levels_eq {before : Table} (h : table.levels = before.levels) (key : Ident)
    (version : Version) : table.find? key version = before.find? key version := by
  rw [find?, find?, current, current, h]

/-- A key that no symbol is stored under is not found. -/
theorem find?_eq_none_of_not_issued (h : table.levels.IssuedBy table.pool) {key : Ident}
    (hkey : ¬ table.pool.Issued key) (version : Version) : table.find? key version = none := by
  refine Option.map_eq_none_iff.mpr (Levels.find?_eq_none_iff.mpr ?_)
  intro level _
  cases hat : table.levels.at? level key with
  | none => rfl
  | some s => exact absurd (h level key s hat).1 hkey

/-- A call is resolved as before if keys are. A signature that has been pooled since
resolves to nothing, as it did when it was not pooled. -/
theorem findFunction?_of_grows {before : Table} (hissued : before.levels.IssuedBy before.pool)
    (hgrows : before.pool.Grows table.pool) {version : Version}
    (hfind : ∀ key, table.find? key version = before.find? key version) {name : Ident}
    {args : List (Ty Ident)} (hname : before.pool.Issued name)
    (hargs : ∀ t ∈ args, t.Known before.pool) :
    table.findFunction? name args version = before.findFunction? name args version := by
  have hsignature : signature table.pool.text (table.pool.text name) args =
      signature before.pool.text (before.pool.text name) args :=
    signature_text_of_grows hgrows hname hargs
  rw [Table.findFunction?, Table.findFunction?, hsignature]
  generalize signature before.pool.text (before.pool.text name) args = s
  cases hbefore : before.pool.ident? s with
  | some key =>
      have hkey := hgrows key s ((before.pool.ident?_iff s key).mp hbefore)
      rw [(table.pool.ident?_iff s key).mpr hkey]
      exact hfind key
  | none =>
      cases hnow : table.pool.ident? s with
      | none => rfl
      | some key =>
          -- The key has been issued since, so that nothing stands under it.
          have hkey : ¬ before.pool.Issued key := by
            rintro ⟨t, ht⟩
            have hsame := (hgrows key t ht).symm.trans ((table.pool.ident?_iff s key).mp hnow)
            cases hsame
            rw [(before.pool.ident?_iff s key).mpr ht] at hbefore
            cases hbefore
          change table.find? key version = none
          rw [hfind]
          exact find?_eq_none_of_not_issued hissued hkey version

/-- Levels and defaults decide all answers. -/
theorem answersAs_of_eq {before : Table} (hissued : before.levels.IssuedBy before.pool)
    (hlevels : table.levels = before.levels) (hdefaults : table.defaults = before.defaults)
    (hgrows : before.pool.Grows table.pool) : table.AnswersAs before where
  find? := find?_of_levels_eq hlevels
  findBuiltin? := fun key version => by rw [Table.findBuiltin?, Table.findBuiltin?, hlevels]
  findFunction? := fun _ _ version => findFunction?_of_grows hissued hgrows
    fun key => find?_of_levels_eq hlevels key version
  hasBuiltinFunction := fun name version => by
    rw [Table.hasBuiltinFunction, Table.hasBuiltinFunction, hlevels]
  symbol? := fun id scan => by rw [Table.symbol?, Table.symbol?, hlevels]
  defaultPrecision := fun kind => by
    rw [Table.defaultPrecision, Table.defaultPrecision, hdefaults]

end Table

end ShaderScope
