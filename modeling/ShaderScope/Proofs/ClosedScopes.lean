import ShaderScope.Proofs.SameAnswers

/-!
# Closed scopes

What is done inside a scope touches nothing but that scope and those opened in it.
While it is open, the table is the older one with some scopes on top, and after it
has been closed the older levels and defaults are back.
-/

namespace ShaderScope

/-! ## Staying inside a scope -/

/-- How many scopes are open inside the scope of the start after one more step. That
scope is not to be closed, and nothing is to be declared in a tier. -/
def Step.depthAfter? (depth : Nat) : Step → Option Nat
  | .act .openScope => some (depth + 1)
  | .act .closeScope => if depth = 0 then none else some (depth - 1)
  | .act (.declareBuiltin ..) => none
  | _ => some depth

/-- The steps never close the scope that they start in, and they end in it. -/
def StaysInside (steps : List Step) : Prop :=
  steps.foldlM Step.depthAfter? 0 = some 0

/-! ## Levels that are left alone -/

namespace Levels

variable {ν : Type}

theorem ext_scope? {levels other : Levels ν}
    (h : ∀ level, levels.scope? level = other.scope? level) : levels = other := by
  obtain ⟨scopes, htiers⟩ := levels
  obtain ⟨scopes', htiers'⟩ := other
  have hscopes : scopes = scopes' := Array.ext_getElem? h
  cases hscopes
  rfl

end Levels

/-- A step that stays inside declares in the innermost level. -/
theorem Table.level_of_attempt? {table : Table} {action : Action Ident} {attempt : Attempt table}
    (hattempt : table.attempt? action = some attempt) {depth next : Nat}
    (hdepth : (Step.act action).depthAfter? depth = some next) :
    attempt.level = table.current ∧ next = depth := by
  cases action with
  | declare name declaration =>
      cases hattempt
      cases hdepth
      exact ⟨rfl, rfl⟩
  | rebind key version =>
      obtain ⟨hit, _, rfl⟩ := Option.map_eq_some_iff.mp hattempt
      cases hdepth
      exact ⟨rfl, rfl⟩
  | declareBuiltin tier name declaration => cases hdepth
  | _ => cases hattempt

/-! ## A table on top of an older one -/

/-- The levels and the frames of an older table, with a number of scopes on top. -/
structure OnTopOf (outer : Table) (height : Nat) (table : Table) : Prop where
  count : table.levels.count = outer.levels.count + height
  scope? : ∀ level < outer.levels.count, table.levels.scope? level = outer.levels.scope? level
  frames : ∃ inner : List PrecisionFrame,
    inner.length = height ∧ table.defaults.frames = inner ++ outer.defaults.frames

namespace OnTopOf

variable {outer table after : Table} {n : Nat}

theorem refl (outer : Table) : OnTopOf outer 0 outer where
  count := rfl
  scope? := fun _ _ => rfl
  frames := ⟨[], rfl, rfl⟩

/-- With no scope on top, the levels and the defaults are those of the older table. -/
theorem eq_of_zero (h : OnTopOf outer 0 table) :
    table.levels = outer.levels ∧ table.defaults = outer.defaults := by
  refine ⟨Levels.ext_scope? ?_, ?_⟩
  · intro level
    by_cases hlevel : level < outer.levels.count
    · exact h.scope? level hlevel
    · have hcount := h.count
      rw [Levels.scope?_eq_none (by omega), Levels.scope?_eq_none (by omega)]
  · obtain ⟨inner, hlength, hframes⟩ := h.frames
    cases List.length_eq_zero_iff.mp hlength
    exact congrArg Defaults.mk hframes

theorem of_levels_eq (h : OnTopOf outer n table) (hlevels : after.levels = table.levels)
    (hdefaults : after.defaults = table.defaults) : OnTopOf outer n after where
  count := hlevels ▸ h.count
  scope? := hlevels ▸ h.scope?
  frames := hdefaults ▸ h.frames

theorem push (h : OnTopOf outer n table) : OnTopOf outer (n + 1) table.openScope where
  count := by
    rw [Table.openScope, Levels.count_push, h.count, Nat.add_assoc]
  scope? := by
    intro level hlevel
    have hcount := h.count
    have hne : level ≠ table.levels.count := by omega
    rw [Table.openScope, Levels.scope?_push, if_neg hne]
    exact h.scope? level hlevel
  frames := by
    obtain ⟨inner, hlength, hframes⟩ := h.frames
    refine ⟨.empty :: inner, congrArg (· + 1) hlength, ?_⟩
    rw [Table.openScope, Defaults.push, hframes]
    rfl

theorem pop (h : OnTopOf outer (n + 1) table) {levels : Levels Ident}
    (hpop : table.levels.pop? = some levels) :
    OnTopOf outer n { table with levels, defaults := table.defaults.pop } := by
  obtain ⟨hcount, hscope⟩ := Levels.pop?_eq_some hpop
  have hold := h.count
  refine ⟨?_, ?_, ?_⟩
  · change levels.count = _
    omega
  · intro level hlevel
    rw [hscope, if_pos (by omega)]
    exact h.scope? level hlevel
  · obtain ⟨inner, hlength, hframes⟩ := h.frames
    cases inner with
    | nil => cases hlength
    | cons frame inner =>
        refine ⟨inner, Nat.succ.inj hlength, ?_⟩
        rw [Defaults.pop, hframes]
        rfl

/-- A table with a scope on top can close it. -/
theorem exists_pop? (h : OnTopOf outer (n + 1) table) :
    ∃ levels, table.levels.pop? = some levels := by
  have hcount := h.count
  have htiers := outer.levels.globalLevel_le_count
  refine Option.ne_none_iff_exists'.mp fun hnone => ?_
  have hle := Levels.pop?_eq_none_iff.mp hnone
  omega

/-- A change of the innermost scope stays above the older table. -/
theorem set (h : OnTopOf outer (n + 1) table) {scope : Scope Ident}
    {level : Nat} {hlevel : level < table.levels.scopes.size} (hcurrent : level = table.current)
    (hlevels : after.levels = table.levels.set level scope hlevel)
    (hdefaults : after.defaults = table.defaults) : OnTopOf outer (n + 1) after where
  count := by
    rw [hlevels, Levels.count_set]
    exact h.count
  scope? := by
    intro other hother
    have hcount := h.count
    have htop := table.levels.current_add_one
    have hne : level ≠ other := by
      rw [hcurrent, Table.current]
      omega
    rw [hlevels, Levels.scope?_set, if_neg hne]
    exact h.scope? other hother
  frames := hdefaults ▸ h.frames

theorem setDefault (h : OnTopOf outer (n + 1) table) (kind : Kind) (precision : Precision) :
    OnTopOf outer (n + 1) { table with defaults := table.defaults.set kind precision } where
  count := h.count
  scope? := h.scope?
  frames := by
    obtain ⟨inner, hlength, hframes⟩ := h.frames
    cases inner with
    | nil => cases hlength
    | cons frame inner =>
        refine ⟨frame.set kind precision :: inner, hlength, ?_⟩
        rw [Defaults.set, hframes]
        rfl

variable {depth next : Nat}

theorem effect (h : OnTopOf outer (depth + 1) table) {action : Action Ident}
    {outcome : Outcome Ident} (heffect : table.Effect action outcome after)
    (hdepth : (Step.act action).depthAfter? depth = some next) :
    OnTopOf outer (next + 1) after := by
  cases heffect with
  | opened =>
      cases hdepth
      exact h.push
  | closed hpop =>
      cases depth with
      | zero => cases hdepth
      | succ depth =>
          cases hdepth
          exact h.pop hpop
  | kept hpop =>
      obtain ⟨levels, hlevels⟩ := h.exists_pop?
      rw [hpop] at hlevels
      cases hlevels
  | stored hattempt hdeclare =>
      obtain ⟨hlevel, rfl⟩ := Table.level_of_attempt? hattempt hdepth
      obtain ⟨scope, rfl⟩ := Levels.exists_set_of_declare hdeclare
      exact h.set hlevel rfl rfl
  | refused hattempt hdeclare =>
      obtain ⟨_, rfl⟩ := Table.level_of_attempt? hattempt hdepth
      exact h.of_levels_eq rfl rfl
  | edited hat =>
      cases hdepth
      exact h.set rfl rfl rfl
  | defaultSet htakes =>
      cases hdepth
      exact h.setDefault _ _
  | _ =>
      cases hdepth
      exact h.of_levels_eq rfl rfl

theorem step (h : OnTopOf outer (depth + 1) table) {step : Step}
    (hdepth : step.depthAfter? depth = some next) :
    OnTopOf outer (next + 1) (table.step step) := by
  cases step with
  | act action => exact h.effect (table.effect_perform action) hdepth
  | alter key change =>
      cases hdepth
      exact h.set rfl rfl rfl

theorem afterSteps {steps : List Step} (h : OnTopOf outer (depth + 1) table)
    (hdepth : steps.foldlM Step.depthAfter? depth = some next) :
    OnTopOf outer (next + 1) (table.afterSteps steps) := by
  induction steps generalizing table depth with
  | nil =>
      cases hdepth
      exact h
  | cons step rest ih =>
      rw [List.foldlM_cons] at hdepth
      obtain ⟨between, hstep, hrest⟩ := Option.bind_eq_some_iff.mp hdepth
      rw [Table.afterSteps_cons]
      exact ih (h.step hstep) hrest

end OnTopOf

/-- Closing a scope gives back what was there before it was opened. After any run
whose names have been issued, let a scope be opened and let steps follow that stay
inside it. The scope can then be closed. All that differs afterwards is that the pool
may have grown and that numbers may have been used up, and every question gets the
answer that it got before. -/
theorem closed_scope_answers_as_before (pool : Pool) {before inside : List Step}
    (hissued : (Table.ofPool pool).IssuedRun before) (hinside : StaysInside inside) :
    let table := (Table.ofPool pool).afterSteps before
    let closed := (table.openScope.afterSteps inside).perform .closeScope
    closed.1 = .closed true ∧ closed.2.levels = table.levels ∧
      closed.2.defaults = table.defaults ∧ table.pool.Grows closed.2.pool ∧
      closed.2.AnswersAs table := by
  intro table closed
  have htop : OnTopOf table 1 (table.openScope.afterSteps inside) :=
    (OnTopOf.refl table).push.afterSteps hinside
  have hgrows : table.pool.Grows (table.openScope.afterSteps inside).pool :=
    table.openScope.grows_afterSteps inside
  obtain ⟨levels, hpop⟩ := htop.exists_pop?
  obtain ⟨hlevels, hdefaults⟩ := (htop.pop hpop).eq_of_zero
  have hclosed : closed = (.closed true, { table.openScope.afterSteps inside with
      levels, defaults := (table.openScope.afterSteps inside).defaults.pop }) :=
    Table.perform_closeScope hpop
  have hissuedBy : table.levels.IssuedBy table.pool :=
    Table.issuedBy_afterSteps (Levels.EveryStored.fresh _) hissued
  rw [hclosed]
  exact ⟨rfl, hlevels, hdefaults, hgrows,
    Table.answersAs_of_eq hissuedBy hlevels hdefaults hgrows⟩

/-- A variable is found again after a scope that has shadowed it, changed the other
one under its key and set a default. -/
theorem found_again_after_closed_scope :
    let x := Pool.blank.intern "x"
    let before := [Step.act .openScope, Step.act (.declare x.1 (.var { type := Ty.scalar .float }))]
    let inside := [Step.act (.declare x.1 (.var { type := Ty.scalar .int })),
      Step.act (.setDefault (Specifier.scalar .float) .high),
      Step.act .openScope, Step.act (.rebind x.1 .essl300), Step.act .closeScope,
      Step.alter x.1 (fun s => s.edit (.resolveLength 4)), Step.act (.intern "y")]
    let table := (Table.ofPool x.2).afterSteps before
    let closed := (table.openScope.afterSteps inside).perform .closeScope
    ((Table.ofPool x.2).IssuedRun before ∧ StaysInside inside) ∧ closed.1 = .closed true ∧
      closed.2.find? x.1 .essl300 = table.find? x.1 .essl300 := by
  intro x before inside table closed
  have hissued : (Table.ofPool x.2).IssuedRun before :=
    ⟨trivial, Pool.issued_intern Pool.blank "x", trivial⟩
  have hinside : StaysInside inside := rfl
  obtain ⟨hclosed, _, _, _, hsame⟩ := closed_scope_answers_as_before x.2 hissued hinside
  exact ⟨⟨hissued, hinside⟩, hclosed, hsame.find? x.1 .essl300⟩

end ShaderScope
