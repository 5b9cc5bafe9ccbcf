import ShaderScope.Proofs.SameAnswers

/-!
# Rejected actions

A rejected action leaves levels, defaults and numbers alone. It may add to the pool,
but no question is answered in another way for that.
-/

namespace ShaderScope

theorem Symbol.levelKey_prototype (id : SymbolId) (name : Ident) (result : Ty Ident)
    (params : List (Ty Ident)) (pool : Pool) :
    Symbol.levelKey ⟨id, name, .prototype result params⟩ pool =
      pool.intern (signature pool.text (pool.text name) params) := by
  simp [levelKey, Declaration.prototype, Function.signature, Function.paramTypes,
    Function.comp_def]

namespace Table

variable {table after : Table} {action : Action Ident} {outcome : Outcome Ident}

/-- All that a rejected action may change is the pool. -/
theorem eq_of_rejected (heffect : table.Effect action outcome after)
    (h : outcome.isRejected = true) : after = { table with pool := after.pool } := by
  cases heffect with
  | refused hattempt hdeclare => rfl
  | kept hpop => rfl
  | unresolved hfind => rfl
  | defaultLeft htakes => rfl
  | _ => cases h

/-- A built-in function is rejected where one with its parameters has been declared
just before, whatever the two results are. -/
theorem rejected_of_redeclared (table : Table) (tier : Tier) (result other : Ty Ident)
    (name : String) {params : List (Ty Ident)} (hparams : ∀ t ∈ params, t.Known table.pool) :
    ((table.perform (.builtinFunction tier result name params)).2.perform
      (.builtinFunction tier other name params)).1.isRejected = true := by
  have heffect := table.effect_perform (.builtinFunction tier result name params)
  have hattempt : table.attempt? (.builtinFunction tier result name params) = some
      ⟨(table.pool.intern name).2, tier.level, table.tier_lt tier,
        ⟨table.nextId, (table.pool.intern name).1, .prototype result params⟩⟩ := rfl
  generalize (table.perform (.builtinFunction tier result name params)).2 = once at heffect ⊢
  obtain ⟨hpool, s, hat⟩ := Table.exists_at?_of_effect heffect hattempt
  simp only [Attempt.key, Attempt.keyed, Symbol.levelKey_prototype] at hpool hat
  have htext := Pool.text?_intern_self table.pool name
  have hnamed := Pool.grows_intern table.pool name
  generalize table.pool.intern name = named at hpool hat htext hnamed
  obtain ⟨n, pool⟩ := named
  have hgrows : pool.Grows once.pool := hpool ▸ Pool.grows_intern pool _
  -- The second declaration finds both its name and its signature in the pool.
  have hname : once.pool.intern name = (n, once.pool) := Pool.intern_of_text? (hgrows n _ htext)
  have hsignature : signature once.pool.text (once.pool.text n) params =
      signature pool.text (pool.text n) params :=
    signature_text_of_grows hgrows ⟨name, htext⟩ fun t ht => (hparams t ht).mono
      fun _ hu d hd => (hu d hd).mono hnamed
  have hkey : once.pool.intern (signature once.pool.text (once.pool.text n) params) =
      ((pool.intern (signature pool.text (pool.text n) params)).1, once.pool) := by
    rw [hsignature]
    refine Pool.intern_of_text? ?_
    rw [hpool]
    exact Pool.text?_intern_self pool _
  have hagain : once.attempt? (.builtinFunction tier other name params) = some
      ⟨once.pool, tier.level, once.tier_lt tier, ⟨once.nextId, n, .prototype other params⟩⟩ := by
    rw [Action.builtinFunction, attempt?, hname]
  have htaken : once.levels.at? tier.level
      (once.pool.intern (signature once.pool.text (once.pool.text n) params)).1 = some s := by
    rw [hkey]
    exact hat
  rw [← Symbol.levelKey_prototype once.nextId n other] at htaken
  rw [(Table.refused_of_taken (once.effect_perform _) hagain htaken).1]
  rfl

end Table

/-- A rejected action cannot be observed. After any run whose names have been issued,
an action that is rejected leaves the levels, the defaults and the next number as
they were. The pool keeps every string under its identifier, and every question gets
the answer that it got before. -/
theorem rejected_action_answers_as_before (pool : Pool) {steps : List Step}
    (hissued : (Table.ofPool pool).IssuedRun steps) {action : Action Ident}
    (hrejected : (((Table.ofPool pool).afterSteps steps).perform action).1.isRejected = true) :
    let table := (Table.ofPool pool).afterSteps steps
    let after := (table.perform action).2
    after.levels = table.levels ∧ after.defaults = table.defaults ∧
      after.nextNumber = table.nextNumber ∧ table.pool.Grows after.pool ∧
      after.AnswersAs table := by
  intro table after
  have heffect := table.effect_perform action
  have hkept : after = { table with pool := after.pool } := Table.eq_of_rejected heffect hrejected
  have hlevels : after.levels = table.levels := by rw [hkept]
  have hdefaults : after.defaults = table.defaults := by rw [hkept]
  have hnumber : after.nextNumber = table.nextNumber := by rw [hkept]
  have hgrows : table.pool.Grows after.pool := Table.grows_of_effect heffect
  have hissuedBy : table.levels.IssuedBy table.pool :=
    Table.issuedBy_afterSteps (Levels.EveryStored.fresh _) hissued
  exact ⟨hlevels, hdefaults, hnumber, hgrows,
    Table.answersAs_of_eq hissuedBy hlevels hdefaults hgrows⟩

/-- A function that is declared again with another result is rejected, and the call
that found it before finds it again. -/
theorem call_answers_after_redeclaration :
    let f := Pool.blank.intern "f"
    let float : Ty Ident := Ty.scalar .float
    let steps := [Step.act (.builtinFunction .common (Ty.scalar .void) "f" [float])]
    let table := (Table.ofPool f.2).afterSteps steps
    let again := table.perform (.builtinFunction .common float "f" [float])
    ((Table.ofPool f.2).IssuedRun steps ∧ again.1.isRejected = true) ∧
      again.2.findFunction? f.1 [float] .essl300 = table.findFunction? f.1 [float] .essl300 := by
  intro f float steps table again
  have hknown : ∀ pool, ∀ t ∈ [float], t.Known pool := by
    intro pool t ht
    rw [List.mem_singleton.mp ht]
    exact (Ty.complete_of_plain rfl (by decide) (by decide) (by decide)).known
  have hissued : (Table.ofPool f.2).IssuedRun steps := ⟨trivial, trivial⟩
  have hrejected : again.1.isRejected = true := by
    have h := Table.rejected_of_redeclared (Table.ofPool f.2) .common (Ty.scalar .void) float "f"
      (hknown _)
    rw [← Table.step_act, ← Table.afterSteps_nil (Table.step _ _), ← Table.afterSteps_cons] at h
    exact h
  have hname : table.pool.Issued f.1 :=
    (Pool.issued_intern Pool.blank "f").mono (Table.grows_afterSteps _ steps)
  have hsame := (rejected_action_answers_as_before f.2 hissued hrejected).2.2.2.2
  exact ⟨⟨hissued, hrejected⟩, hsame.findFunction? f.1 [float] .essl300 hname (hknown _)⟩

end ShaderScope
