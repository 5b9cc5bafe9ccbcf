import ShaderScope.Table.Basic

/-!
# Actions on a table

What happens to a table while a shader is read, as data. A run performs actions
in order and keeps what each of them answered. Lookups are no actions, because
they change nothing.
-/

namespace ShaderScope

/-- One thing that happens to a table. -/
inductive Action (ν : Type) where
  | openScope
  | closeScope
  | declare (name : ν) (declaration : Declaration ν)
  | rebind (key : ν) (version : Version)
  | declareBuiltin (tier : Tier) (name : String) (declaration : Declaration ν)
  | edit (key : ν) (edits : List (Declaration.Edit ν))
  | setDefault (specifier : Specifier ν) (precision : Precision)
  | intern (s : String)

/-- What an action answers. -/
inductive Outcome (ν : Type) where
  | opened
  | closed (done : Bool)
  | declared (result : Except (Rejection ν) SymbolId)
  | edited (symbol : Option (Symbol ν))
  | defaultSet (accepted : Bool)
  | interned (name : ν)

/-- The answer says that the action has been rejected. -/
def Outcome.isRejected {ν : Type} : Outcome ν → Bool
  | declared (.error _) => true
  | closed done => !done
  | defaultSet accepted => !accepted
  | _ => false

namespace Action

variable {ν : Type}

/-- A function with unnamed parameters in a tier. -/
def builtinFunction (tier : Tier) (result : Ty ν) (name : String) (params : List (Ty ν)) :
    Action ν :=
  .declareBuiltin tier name (.prototype result params)

/-- A variable in a tier. -/
def builtinVariable (tier : Tier) (name : String) (type : Ty ν) : Action ν :=
  .declareBuiltin tier name (.var { type })

/-- An integer constant in a tier. -/
def builtinInt (tier : Tier) (name : String) (value : Int32) : Action ν :=
  .declareBuiltin tier name (.intConstant value)

end Action

namespace Table

/-- Perform one action. -/
def perform (table : Table) : Action Ident → Outcome Ident × Table
  | .openScope => (.opened, table.openScope)
  | .closeScope =>
      match table.closeScope? with
      | none => (.closed false, table)
      | some outer => (.closed true, outer)
  | .declare name declaration =>
      let (result, after) := table.declare name declaration
      (.declared result, after)
  | .rebind key version =>
      let (result, after) := table.rebind key version
      (.declared result, after)
  | .declareBuiltin tier name declaration =>
      let (result, after) := table.declareBuiltin tier name declaration
      (.declared result, after)
  | .edit key edits =>
      match table.edit? key edits with
      | none => (.edited none, table)
      | some (symbol, after) => (.edited (some symbol), after)
  | .setDefault specifier precision =>
      match table.setDefaultPrecision? specifier precision with
      | none => (.defaultSet false, table)
      | some after => (.defaultSet true, after)
  | .intern s =>
      let (name, pool) := table.pool.intern s
      (.interned name, { table with pool })

/-- Perform actions from the first to the last. -/
def run (table : Table) : List (Action Ident) → List (Outcome Ident) × Table
  | [] => ([], table)
  | action :: rest =>
      let (outcome, next) := table.perform action
      let (outcomes, final) := next.run rest
      (outcome :: outcomes, final)

/-- The table after a run. -/
def after (table : Table) (actions : List (Action Ident)) : Table :=
  (table.run actions).2

theorem after_cons (table : Table) (action : Action Ident) (rest : List (Action Ident)) :
    table.after (action :: rest) = (table.perform action).2.after rest :=
  rfl

end Table

end ShaderScope
