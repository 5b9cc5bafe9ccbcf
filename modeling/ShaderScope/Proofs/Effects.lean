import ShaderScope.Proofs.Issued
import ShaderScope.Proofs.Placement
import ShaderScope.Table.Action

/-!
# Effects of actions

Three actions store a symbol, and they differ only in which symbol they store at
which level. All of them come down to one attempt, which is accepted if its place
is free and refused otherwise. With that, each action has one or two effects, and
an invariant of runs is shown for each effect once.
-/

namespace ShaderScope

theorem Symbol.levelKey_grows (s : Symbol Ident) (pool : Pool) :
    pool.Grows (s.levelKey pool).2 := by
  unfold levelKey
  split
  · exact Pool.grows_intern pool _
  · exact Pool.Grows.refl pool
  · exact Pool.Grows.refl pool

/-- What a declaration tries to store, and the level where it does so. -/
structure Attempt (table : Table) where
  pool : Pool
  level : Nat
  inBounds : level < table.levels.scopes.size
  symbol : Symbol Ident

namespace Attempt

variable {table : Table}

/-- The key that the symbol gets. -/
def key (attempt : Attempt table) : Ident :=
  (attempt.symbol.levelKey attempt.pool).1

/-- The pool with the key in it. -/
def keyed (attempt : Attempt table) : Pool :=
  (attempt.symbol.levelKey attempt.pool).2

end Attempt

namespace Table

/-- The attempt that an action makes, if it gets that far. -/
def attempt? (table : Table) : Action Ident → Option (Attempt table)
  | .declare name declaration =>
      some ⟨table.pool, table.current, table.current_lt, ⟨table.nextId, name, declaration⟩⟩
  | .rebind key version =>
      (table.find? key version).map fun hit =>
        ⟨table.pool, table.current, table.current_lt, hit.symbol.rebind table.nextId⟩
  | .declareBuiltin tier name declaration =>
      let (ident, pool) := table.pool.intern name
      some ⟨pool, tier.level, table.tier_lt tier, ⟨table.nextId, ident, declaration⟩⟩
  | _ => none

/-- What an action does to a table, with the answer that it gives. -/
inductive Effect (table : Table) : Action Ident → Outcome Ident → Table → Prop where
  | opened : Effect table .openScope .opened table.openScope
  | closed {levels : Levels Ident} (h : table.levels.pop? = some levels) :
      Effect table .closeScope (.closed true) { table with levels, defaults := table.defaults.pop }
  | kept (h : table.levels.pop? = none) : Effect table .closeScope (.closed false) table
  | stored {action : Action Ident} {attempt : Attempt table} {levels : Levels Ident}
      (h : table.attempt? action = some attempt)
      (hdeclare : table.levels.declare attempt.level attempt.inBounds attempt.key attempt.symbol =
        .ok levels) :
      Effect table action (.declared (.ok attempt.symbol.id))
        { table with pool := attempt.keyed, levels, nextNumber := table.nextNumber + 1 }
  | refused {action : Action Ident} {attempt : Attempt table} {rejection : Rejection Ident}
      (h : table.attempt? action = some attempt)
      (hdeclare : table.levels.declare attempt.level attempt.inBounds attempt.key attempt.symbol =
        .error rejection) :
      Effect table action (.declared (.error rejection)) { table with pool := attempt.keyed }
  | unresolved {key : Ident} {version : Version} (h : table.find? key version = none) :
      Effect table (.rebind key version) (.declared (.error (.unresolved key))) table
  | edited {key : Ident} {edits : List (Declaration.Edit Ident)} {symbol : Symbol Ident}
      (h : table.levels.at? table.current key = some symbol) :
      Effect table (.edit key edits) (.edited (some (symbol.editAll edits)))
        { table with levels := table.levels.modifyCurrent key (fun s => s.editAll edits) }
  | missed {key : Ident} {edits : List (Declaration.Edit Ident)}
      (h : table.levels.at? table.current key = none) :
      Effect table (.edit key edits) (.edited none) table
  | defaultSet {specifier : Specifier Ident} {precision : Precision}
      (h : specifier.takesDefault = true) :
      Effect table (.setDefault specifier precision) (.defaultSet true)
        { table with defaults := table.defaults.set specifier.kind precision }
  | defaultLeft {specifier : Specifier Ident} {precision : Precision}
      (h : specifier.takesDefault = false) :
      Effect table (.setDefault specifier precision) (.defaultSet false) table
  | interned (s : String) :
      Effect table (.intern s) (.interned (table.pool.intern s).1)
        { table with pool := (table.pool.intern s).2 }

/-- Storing has the effect of the attempt. -/
theorem effect_store {table : Table} {action : Action Ident} {attempt : Attempt table}
    (h : table.attempt? action = some attempt) :
    let stored := { table with pool := attempt.pool }.store attempt.level attempt.inBounds
      attempt.symbol
    Effect table action (.declared stored.1) stored.2 := by
  intro stored
  cases hdeclare : table.levels.declare attempt.level attempt.inBounds attempt.key
      attempt.symbol with
  | error rejection =>
      have hstored : stored = (.error rejection, { table with pool := attempt.keyed }) := by
        change store _ _ _ _ = _
        unfold store
        rw [Attempt.key] at hdeclare
        simp only [hdeclare]
        rfl
      rw [hstored]
      exact .refused h hdeclare
  | ok levels =>
      have hstored : stored = (.ok attempt.symbol.id,
          { table with pool := attempt.keyed, levels, nextNumber := table.nextNumber + 1 }) := by
        change store _ _ _ _ = _
        unfold store
        rw [Attempt.key] at hdeclare
        simp only [hdeclare]
        rfl
      rw [hstored]
      exact .stored h hdeclare

theorem perform_closeScope {table : Table} {levels : Levels Ident}
    (h : table.levels.pop? = some levels) :
    table.perform .closeScope =
      (.closed true, { table with levels, defaults := table.defaults.pop }) := by
  have hclose : table.closeScope? = some { table with levels, defaults := table.defaults.pop } := by
    rw [closeScope?, h]
    rfl
  simp only [perform, hclose]

theorem perform_edit {table : Table} {key : Ident} {symbol : Symbol Ident}
    (h : table.levels.at? table.current key = some symbol)
    (edits : List (Declaration.Edit Ident)) :
    table.perform (.edit key edits) = (.edited (some (symbol.editAll edits)),
      { table with levels := table.levels.modifyCurrent key (fun s => s.editAll edits) }) := by
  have hedit : table.edit? key edits = some (symbol.editAll edits,
      { table with levels := table.levels.modifyCurrent key (fun s => s.editAll edits) }) := by
    rw [edit?, h]
    rfl
  simp only [perform, hedit]

/-- Every action has one of the effects. -/
theorem effect_perform (table : Table) (action : Action Ident) :
    Effect table action (table.perform action).1 (table.perform action).2 := by
  cases action with
  | openScope => exact .opened
  | closeScope =>
      cases hpop : table.levels.pop? with
      | none =>
          have hclose : table.closeScope? = none := by rw [closeScope?, hpop]; rfl
          simp only [perform, hclose]
          exact .kept hpop
      | some levels =>
          rw [perform_closeScope hpop]
          exact .closed hpop
  | declare name declaration =>
      have hattempt : table.attempt? (.declare name declaration) = some ⟨table.pool, table.current,
          table.current_lt, ⟨table.nextId, name, declaration⟩⟩ := rfl
      exact effect_store hattempt
  | rebind key version =>
      cases hfind : table.find? key version with
      | none =>
          simp only [perform, rebind, hfind]
          exact .unresolved hfind
      | some hit =>
          have hattempt : table.attempt? (.rebind key version) = some ⟨table.pool, table.current,
              table.current_lt, hit.symbol.rebind table.nextId⟩ := by
            rw [attempt?, hfind]
            rfl
          simp only [perform, rebind, hfind]
          exact effect_store hattempt
  | declareBuiltin tier name declaration =>
      have hattempt : table.attempt? (.declareBuiltin tier name declaration) =
          some ⟨(table.pool.intern name).2, tier.level, table.tier_lt tier,
            ⟨table.nextId, (table.pool.intern name).1, declaration⟩⟩ := rfl
      exact effect_store hattempt
  | edit key edits =>
      cases hat : table.levels.at? table.current key with
      | none =>
          have hedit : table.edit? key edits = none := by rw [edit?, hat]; rfl
          simp only [perform, hedit]
          exact .missed hat
      | some symbol =>
          rw [perform_edit hat]
          exact .edited hat
  | setDefault specifier precision =>
      cases htakes : specifier.takesDefault with
      | false =>
          simp only [perform, setDefaultPrecision?, htakes]
          exact .defaultLeft htakes
      | true =>
          simp only [perform, setDefaultPrecision?, htakes]
          exact .defaultSet htakes
  | intern s => exact .interned s

section

variable {table after : Table} {action : Action Ident} {outcome : Outcome Ident}
  {attempt : Attempt table}

/-- What comes of an attempt: it is accepted, or it is refused and nothing but the pool
may differ afterwards. -/
theorem effect_of_attempt? (heffect : table.Effect action outcome after)
    (h : table.attempt? action = some attempt) :
    (∃ levels, table.levels.declare attempt.level attempt.inBounds attempt.key attempt.symbol =
        .ok levels ∧ outcome = .declared (.ok attempt.symbol.id) ∧
      after = { table with pool := attempt.keyed, levels, nextNumber := table.nextNumber + 1 }) ∨
    ∃ rejection, table.levels.declare attempt.level attempt.inBounds attempt.key attempt.symbol =
        .error rejection ∧ outcome = .declared (.error rejection) ∧
      after = { table with pool := attempt.keyed } := by
  cases heffect with
  | stored hattempt hdeclare =>
      rw [h] at hattempt
      cases hattempt
      exact .inl ⟨_, hdeclare, rfl, rfl⟩
  | refused hattempt hdeclare =>
      rw [h] at hattempt
      cases hattempt
      exact .inr ⟨_, hdeclare, rfl, rfl⟩
  | unresolved hfind =>
      rw [attempt?, hfind] at h
      cases h
  | _ => cases h

/-- An attempt at a free place is accepted, and its symbol stands there afterwards. -/
theorem accepted_of_free (heffect : table.Effect action outcome after)
    (h : table.attempt? action = some attempt)
    (hfree : table.levels.at? attempt.level attempt.key = none) :
    outcome = .declared (.ok attempt.symbol.id) ∧ after.pool = attempt.keyed ∧
      after.levels.at? attempt.level attempt.key = some attempt.symbol := by
  rcases effect_of_attempt? heffect h with ⟨_, hdeclare, rfl, rfl⟩ | ⟨_, hdeclare, _, _⟩
  · obtain ⟨_, _, hat⟩ := Levels.declare_eq_ok hdeclare
    exact ⟨rfl, rfl, (hat _ _).trans (if_pos ⟨rfl, rfl⟩)⟩
  · obtain ⟨existing, hat, _⟩ := Levels.declare_eq_error hdeclare
    rw [hfree] at hat
    cases hat

/-- An attempt at a place that is taken is refused, for the symbol that stands there. -/
theorem refused_of_taken (heffect : table.Effect action outcome after)
    (h : table.attempt? action = some attempt) {existing : Symbol Ident}
    (htaken : table.levels.at? attempt.level attempt.key = some existing) :
    outcome = .declared (.error (.redeclared attempt.symbol.name existing.id)) ∧
      after = { table with pool := attempt.keyed } := by
  rcases effect_of_attempt? heffect h with ⟨_, hdeclare, _, _⟩ | ⟨_, hdeclare, rfl, rfl⟩
  · have hfree := (Levels.declare_eq_ok hdeclare).1
    rw [htaken] at hfree
    cases hfree
  · obtain ⟨found, hat, rfl⟩ := Levels.declare_eq_error hdeclare
    rw [htaken] at hat
    cases hat
    exact ⟨rfl, rfl⟩

/-- An attempt opens and closes no scope. -/
theorem count_of_attempt? (heffect : table.Effect action outcome after)
    (h : table.attempt? action = some attempt) : after.levels.count = table.levels.count := by
  rcases effect_of_attempt? heffect h with ⟨_, hdeclare, _, rfl⟩ | ⟨_, _, _, rfl⟩
  · exact (Levels.declare_eq_ok hdeclare).2.1
  · rfl

/-- Once an attempt has been made, some symbol stands in its place. -/
theorem exists_at?_of_effect (heffect : table.Effect action outcome after)
    (h : table.attempt? action = some attempt) :
    after.pool = attempt.keyed ∧
      ∃ s, after.levels.at? attempt.level attempt.key = some s := by
  cases hplace : table.levels.at? attempt.level attempt.key with
  | none =>
      obtain ⟨_, hpool, hat⟩ := accepted_of_free heffect h hplace
      exact ⟨hpool, _, hat⟩
  | some existing =>
      obtain ⟨_, rfl⟩ := refused_of_taken heffect h hplace
      exact ⟨rfl, existing, hplace⟩

end

/-! ## What every action keeps -/

section

variable {table after : Table} {action : Action Ident} {outcome : Outcome Ident}

/-- A declaration is stored in the innermost level, unless it is made for a tier. -/
theorem level_cases_of_attempt? {attempt : Attempt table}
    (hattempt : table.attempt? action = some attempt) :
    attempt.level = table.current ∨
      ∃ tier name declaration, action = .declareBuiltin tier name declaration ∧
        attempt.level = tier.level := by
  cases action with
  | declare name declaration =>
      cases hattempt
      exact .inl rfl
  | rebind key version =>
      obtain ⟨hit, -, rfl⟩ := Option.map_eq_some_iff.mp hattempt
      exact .inl rfl
  | declareBuiltin tier name declaration =>
      cases hattempt
      exact .inr ⟨tier, name, declaration, rfl, rfl⟩
  | _ => cases hattempt

theorem pool_grows_of_attempt? {attempt : Attempt table}
    (hattempt : table.attempt? action = some attempt) : table.pool.Grows attempt.pool := by
  cases action with
  | declare name declaration =>
      cases hattempt
      exact Pool.Grows.refl _
  | rebind key version =>
      obtain ⟨hit, -, rfl⟩ := Option.map_eq_some_iff.mp hattempt
      exact Pool.Grows.refl _
  | declareBuiltin tier name declaration =>
      cases hattempt
      exact Pool.grows_intern table.pool name
  | _ => cases hattempt

theorem grows_of_attempt? {attempt : Attempt table}
    (hattempt : table.attempt? action = some attempt) : table.pool.Grows attempt.keyed :=
  (pool_grows_of_attempt? hattempt).trans (attempt.symbol.levelKey_grows attempt.pool)

theorem grows_of_effect (heffect : table.Effect action outcome after) :
    table.pool.Grows after.pool := by
  cases heffect with
  | stored hattempt _ => exact grows_of_attempt? hattempt
  | refused hattempt _ => exact grows_of_attempt? hattempt
  | interned s => exact Pool.grows_intern table.pool s
  | _ => exact Pool.Grows.refl _

end

theorem grows_after (table : Table) (actions : List (Action Ident)) :
    table.pool.Grows (table.after actions).pool := by
  induction actions generalizing table with
  | nil => exact Pool.Grows.refl table.pool
  | cons action rest ih =>
      exact (grows_of_effect (table.effect_perform action)).trans (ih (table.perform action).2)

end Table

/-- Every symbol of the levels, together with its key, has the property. -/
def Levels.EveryStored (P : Ident → Symbol Ident → Prop) (levels : Levels Ident) : Prop :=
  ∀ level key s, levels.at? level key = some s → P key s

theorem Levels.EveryStored.fresh (P : Ident → Symbol Ident → Prop) :
    Levels.EveryStored P .fresh := by
  intro level key s hat
  rw [Levels.at?_fresh] at hat
  cases hat

theorem Levels.EveryStored.modifyCurrent {P : Ident → Symbol Ident → Prop}
    {levels : Levels Ident} (h : levels.EveryStored P) {key : Ident}
    {change : Symbol Ident → Symbol Ident}
    (hchange : ∀ s, levels.at? levels.current key = some s → P key s → P key (change s)) :
    (levels.modifyCurrent key change).EveryStored P := by
  intro level k s hat
  rw [Levels.at?_modifyCurrent] at hat
  split at hat
  · next hplace =>
      obtain ⟨rfl, rfl⟩ := hplace
      obtain ⟨before, hbefore, rfl⟩ := Option.map_eq_some_iff.mp hat
      exact hchange before hbefore (h _ _ before hbefore)
  · exact h level k s hat

/-- A property of stored symbols that is kept while the pool grows holds after an
action if it holds of what the action tries to store and of what it changes. -/
theorem Table.everyStored_of_effect {table after : Table} {action : Action Ident}
    {outcome : Outcome Ident} {P : Pool → Ident → Symbol Ident → Prop}
    (hmono : ∀ {p q : Pool} {key : Ident} {s : Symbol Ident}, p.Grows q → P p key s → P q key s)
    (h : table.levels.EveryStored (P table.pool)) (heffect : table.Effect action outcome after)
    (hattempt : ∀ attempt, table.attempt? action = some attempt →
      P attempt.keyed attempt.key attempt.symbol)
    (hedit : ∀ key edits s, action = .edit key edits →
      table.levels.at? table.current key = some s → P table.pool key s →
        P table.pool key (s.editAll edits)) :
    after.levels.EveryStored (P after.pool) := by
  have hgrows := grows_of_effect heffect
  have hold : table.levels.EveryStored (P after.pool) :=
    fun level key s hat => hmono hgrows (h level key s hat)
  intro level key s hat
  cases heffect with
  | opened =>
      rw [openScope, Levels.at?_push] at hat
      exact hold level key s hat
  | closed hpop =>
      rw [Levels.at?_pop? hpop] at hat
      split at hat
      · exact hold level key s hat
      · cases hat
  | @stored _ attempt _ hmade hdeclare =>
      rw [(Levels.declare_eq_ok hdeclare).2.2] at hat
      split at hat
      · next hplace =>
          cases hat
          rw [hplace.2]
          exact hattempt attempt hmade
      · exact hold level key s hat
  | edited hthere =>
      exact hold.modifyCurrent (fun s hat _ => hedit _ _ s rfl hat (h _ _ s hat)) level key s hat
  | _ => exact hold level key s hat

end ShaderScope
