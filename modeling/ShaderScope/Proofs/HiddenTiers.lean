import ShaderScope.Proofs.SameAnswers

/-!
# Hidden tiers

A tier that belongs to one version of the language is passed over by the lookups for
all others. Whatever stands in it, and whatever was pooled to put it there, those
lookups find the same.
-/

namespace ShaderScope

namespace Tier

/-- The tier belongs to a version, and a lookup is made for another one. -/
def HiddenFrom : Tier → Version → Prop
  | common, _ => False
  | essl100, version => version ≠ .essl100
  | essl300, version => version ≠ .essl300

instance : (tier : Tier) → (version : Version) → Decidable (tier.HiddenFrom version)
  | common, _ => inferInstanceAs (Decidable False)
  | essl100, version => inferInstanceAs (Decidable (version ≠ .essl100))
  | essl300, version => inferInstanceAs (Decidable (version ≠ .essl300))

theorem not_eligible_of_hiddenFrom {tier : Tier} {version : Version}
    (h : tier.HiddenFrom version) : eligible version tier.level = false := by
  cases tier with
  | common => cases h
  | essl100 => exact decide_eq_false h
  | essl300 => exact decide_eq_false h

/-- A lookup does not visit a tier that is hidden from its version. -/
theorem ne_level_of_mem_eligibleLevels {tier : Tier} {version : Version}
    (h : tier.HiddenFrom version) {top level : Nat}
    (hlevel : level ∈ eligibleLevels version top) : level ≠ tier.level := by
  rintro rfl
  have heligible := ((mem_eligibleLevels version top _).mp hlevel).2
  rw [not_eligible_of_hiddenFrom h] at heligible
  cases heligible

end Tier

/-- As many levels, with the same symbols under the same keys and the same names of
functions, unless in one tier. -/
structure Levels.AgreeBesides (tier : Tier) (levels other : Levels Ident) : Prop where
  count : levels.count = other.count
  at? : ∀ level key, level ≠ tier.level → levels.at? level key = other.at? level key
  hasFunctionAt : ∀ level name, level ≠ tier.level →
    levels.hasFunctionAt level name = other.hasFunctionAt level name

namespace Levels.AgreeBesides

variable {tier : Tier} {levels other third : Levels Ident}

theorem refl (tier : Tier) (levels : Levels Ident) : levels.AgreeBesides tier levels where
  count := rfl
  at? := fun _ _ _ => rfl
  hasFunctionAt := fun _ _ _ => rfl

theorem trans (h : levels.AgreeBesides tier other) (h' : other.AgreeBesides tier third) :
    levels.AgreeBesides tier third where
  count := h.count.trans h'.count
  at? := fun level key hlevel => (h.at? level key hlevel).trans (h'.at? level key hlevel)
  hasFunctionAt := fun level name hlevel =>
    (h.hasFunctionAt level name hlevel).trans (h'.hasFunctionAt level name hlevel)

/-- Replacing the scope of a tier changes no other level. -/
theorem set (levels : Levels Ident) (tier : Tier) (scope : Scope Ident)
    (hbound : tier.level < levels.scopes.size) :
    (levels.set tier.level scope hbound).AgreeBesides tier levels where
  count := Levels.count_set _ _ _ _
  at? := by
    intro level key hlevel
    rw [Levels.at?_set, if_neg hlevel]
  hasFunctionAt := by
    intro level name hlevel
    rw [Levels.hasFunctionAt, Levels.scope?_set, if_neg hlevel.symm, Levels.hasFunctionAt]

variable {version : Version}

theorem find?_eq (h : levels.AgreeBesides tier other) (hhidden : tier.HiddenFrom version)
    (top : Nat) (key : Ident) : levels.find? top version key = other.find? top version key :=
  Levels.find?_congr fun level hlevel =>
    h.at? level key (Tier.ne_level_of_mem_eligibleLevels hhidden hlevel)

theorem tiersHaveFunction_eq (h : levels.AgreeBesides tier other)
    (hhidden : tier.HiddenFrom version) (name : Ident) :
    levels.tiersHaveFunction version name = other.tiersHaveFunction version name :=
  Levels.tiersHaveFunction_congr fun level hlevel =>
    h.hasFunctionAt level name (Tier.ne_level_of_mem_eligibleLevels hhidden hlevel)

end Levels.AgreeBesides

namespace Table

variable {table before : Table} {tier : Tier} {version : Version}

/-- For the version, everything is found as the table before finds it. A call is about a
name and types that the pool of the table before has issued. -/
structure ResolvesAs (version : Version) (table before : Table) : Prop where
  find? : ∀ key, table.find? key version = before.find? key version
  findBuiltin? : ∀ key, table.findBuiltin? key version = before.findBuiltin? key version
  findFunction? : ∀ name args, before.pool.Issued name → (∀ t ∈ args, t.Known before.pool) →
    table.findFunction? name args version = before.findFunction? name args version
  hasBuiltinFunction : ∀ name,
    table.hasBuiltinFunction name version = before.hasBuiltinFunction name version

theorem resolvesAs_of_agreeBesides (hissued : before.levels.IssuedBy before.pool)
    (hagree : table.levels.AgreeBesides tier before.levels)
    (hgrows : before.pool.Grows table.pool) (hhidden : tier.HiddenFrom version) :
    table.ResolvesAs version before := by
  have hcurrent : table.current = before.current := Levels.current_eq_of_count hagree.count
  have hfind : ∀ key, table.find? key version = before.find? key version := by
    intro key
    rw [Table.find?, Table.find?, hcurrent, hagree.find?_eq hhidden]
  refine ⟨hfind, ?_, ?_, ?_⟩
  · intro key
    rw [Table.findBuiltin?, Table.findBuiltin?, hagree.find?_eq hhidden]
  · intro name args hname hargs
    exact findFunction?_of_grows hissued hgrows hfind hname hargs
  · exact hagree.tiersHaveFunction_eq hhidden

/-! ## Declaring in a tier -/

theorem agreeBesides_of_effect {after : Table} {outcome : Outcome Ident} {name : String}
    {declaration : Declaration Ident}
    (heffect : table.Effect (.declareBuiltin tier name declaration) outcome after) :
    after.levels.AgreeBesides tier table.levels := by
  cases heffect with
  | stored hattempt hdeclare =>
      cases hattempt
      obtain ⟨scope, rfl⟩ := Levels.exists_set_of_declare hdeclare
      exact Levels.AgreeBesides.set table.levels tier scope _
  | refused hattempt hdeclare => exact Levels.AgreeBesides.refl tier table.levels

/-- The actions that declare several built-ins in one tier. -/
def declarationsIn (tier : Tier) (builtins : List (String × Declaration Ident)) :
    List (Action Ident) :=
  builtins.map fun (name, declaration) => .declareBuiltin tier name declaration

theorem after_declarationsIn (table : Table) (tier : Tier)
    (builtins : List (String × Declaration Ident)) :
    (table.after (declarationsIn tier builtins)).levels.AgreeBesides tier table.levels ∧
      table.pool.Grows (table.after (declarationsIn tier builtins)).pool := by
  induction builtins generalizing table with
  | nil => exact ⟨Levels.AgreeBesides.refl tier table.levels, Pool.Grows.refl table.pool⟩
  | cons builtin rest ih =>
      have heffect := table.effect_perform (.declareBuiltin tier builtin.1 builtin.2)
      obtain ⟨hagree, hgrows⟩ := ih (table.perform (.declareBuiltin tier builtin.1 builtin.2)).2
      exact ⟨hagree.trans (agreeBesides_of_effect heffect),
        (grows_of_effect heffect).trans hgrows⟩

end Table

/-- A tier is invisible to every version that it is hidden from. Let two tables agree
in all levels but the tier, let the pool of one have grown from that of the other, and
let the latter have issued all that it stores. Then both resolve the same for such a
version, and they still do when any number of built-ins has been declared in the tier. -/
theorem hidden_tier_is_invisible {table before : Table} {tier : Tier} {version : Version}
    (hissued : before.levels.IssuedBy before.pool)
    (hagree : table.levels.AgreeBesides tier before.levels)
    (hgrows : before.pool.Grows table.pool) (hhidden : tier.HiddenFrom version) :
    table.ResolvesAs version before ∧
      ∀ builtins, (table.after (Table.declarationsIn tier builtins)).ResolvesAs version before := by
  refine ⟨Table.resolvesAs_of_agreeBesides hissued hagree hgrows hhidden, ?_⟩
  intro builtins
  obtain ⟨hafter, hgrown⟩ := table.after_declarationsIn tier builtins
  exact Table.resolvesAs_of_agreeBesides hissued (hafter.trans hagree) (hgrows.trans hgrown)
    hhidden

/-- A call finds the function of the common tier, whatever the tier of another version
declares under its name. -/
theorem call_ignores_tier_of_other_version :
    let f := Pool.blank.intern "f"
    let float : Ty Ident := Ty.scalar .float
    let steps := [Step.act (.builtinFunction .common (Ty.scalar .void) "f" [float])]
    let builtins := [("f", .prototype float [float]), ("f", .var { type := float })]
    let before := (Table.ofPool f.2).afterSteps steps
    let table := before.after (Table.declarationsIn .essl100 builtins)
    (before.levels.IssuedBy before.pool ∧ table.levels.AgreeBesides .essl100 before.levels ∧
      before.pool.Grows table.pool ∧ Tier.essl100.HiddenFrom .essl300) ∧
      table.findFunction? f.1 [float] .essl300 = before.findFunction? f.1 [float] .essl300 := by
  intro f float steps builtins before table
  have hissued : before.levels.IssuedBy before.pool :=
    Table.issuedBy_afterSteps (Levels.EveryStored.fresh _) ⟨trivial, trivial⟩
  obtain ⟨hagree, hgrows⟩ := before.after_declarationsIn .essl100 builtins
  have hhidden : Tier.essl100.HiddenFrom .essl300 := by decide
  have hname : before.pool.Issued f.1 :=
    (Pool.issued_intern Pool.blank "f").mono (Table.grows_afterSteps _ steps)
  have hknown : ∀ t ∈ [float], t.Known before.pool := by
    intro t ht
    rw [List.mem_singleton.mp ht]
    exact (Ty.complete_of_plain rfl (by decide) (by decide) (by decide)).known
  have hsame := (hidden_tier_is_invisible hissued hagree hgrows hhidden).1
  exact ⟨⟨hissued, hagree, hgrows, hhidden⟩, hsame.findFunction? f.1 [float] hname hknown⟩

end ShaderScope
