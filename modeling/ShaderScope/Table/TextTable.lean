import ShaderScope.Table.Conversation

/-!
# Tables without a pool

A table over strings has no identifiers. The key of a symbol is its name itself, or
the signature of a function, and a request is answered in strings right away. This
is what a table means to someone who never sees an identifier.
-/

namespace ShaderScope

/-- The scopes and defaults of one shader, over strings. -/
structure TextTable where
  levels : Levels String
  defaults : Defaults
  nextNumber : UInt32

namespace TextTable

/-- The key of a symbol over strings. -/
def keyOf (s : Symbol String) : String :=
  match s.declaration with
  | .func f => f.signature id s.name
  | .var _ => s.name
  | .typeName _ => s.name

/-- Three empty tiers and no open scope. -/
def fresh : TextTable where
  levels := .fresh
  defaults := .ofLevels globalLevel
  nextNumber := 1

/-- The identity of the next declaration that is stored. -/
def nextId (table : TextTable) : SymbolId :=
  ⟨table.nextNumber⟩

/-- The innermost level. -/
def current (table : TextTable) : Nat :=
  table.levels.current

theorem current_lt (table : TextTable) : table.current < table.levels.scopes.size :=
  table.levels.current_lt

/-- Store a symbol at a level. -/
def store (table : TextTable) (level : Nat) (h : level < table.levels.scopes.size)
    (symbol : Symbol String) : Reply String × TextTable :=
  match table.levels.declare level h (keyOf symbol) symbol with
  | .error rejection => (.done (.declared (.error rejection)), table)
  | .ok levels =>
      (.done (.declared (.ok symbol.id)), { table with levels, nextNumber := table.nextNumber + 1 })

/-- Resolve a key from the innermost level down. -/
def find (table : TextTable) (key : String) (version : Version) : Reply String :=
  match table.levels.find? table.current version key with
  | none => .missing
  | some (level, symbol) => .hit symbol level (level ≤ lastTierLevel) (level = table.current)

/-- Carry out an action. Without a pool, a string that is pooled is given back. -/
def perform (table : TextTable) : Action String → Reply String × TextTable
  | .openScope =>
      (.done .opened, { table with levels := table.levels.push, defaults := table.defaults.push })
  | .closeScope =>
      match table.levels.pop? with
      | none => (.done (.closed false), table)
      | some levels => (.done (.closed true), { table with levels, defaults := table.defaults.pop })
  | .declare name declaration =>
      table.store table.current table.current_lt ⟨table.nextId, name, declaration⟩
  | .rebind key version =>
      match table.levels.find? table.current version key with
      | none => (.done (.declared (.error (.unresolved key))), table)
      | some (_, symbol) =>
          table.store table.current table.current_lt (symbol.rebind table.nextId)
  | .declareBuiltin tier name declaration =>
      table.store tier.level (table.levels.level_lt tier) ⟨table.nextId, name, declaration⟩
  | .edit key edits =>
      match table.levels.at? table.current key with
      | none => (.done (.edited none), table)
      | some symbol =>
          (.done (.edited (some (symbol.editAll edits))),
            { table with levels := table.levels.modifyCurrent key (fun s => s.editAll edits) })
  | .setDefault specifier precision =>
      if specifier.takesDefault then
        (.done (.defaultSet true),
          { table with defaults := table.defaults.set specifier.kind precision })
      else
        (.done (.defaultSet false), table)
  | .intern s => (.done (.interned s), table)

/-- Make a request. -/
def reply (table : TextTable) : Request String → Reply String × TextTable
  | .act action => table.perform action
  | .replace key declaration =>
      match table.levels.at? table.current key with
      | none => (.done (.edited none), table)
      | some symbol =>
          (.done (.edited (some { symbol with declaration })),
            { table with levels := table.levels.modifyCurrent key ({ · with declaration }) })
  | .find key version => (table.find key version, table)
  | .findBuiltin key version =>
      (.ofSymbol? ((table.levels.find? lastTierLevel version key).map Prod.snd), table)
  | .findFunction name args version => (table.find (signature id name args) version, table)
  | .hasBuiltinFunction name version =>
      (.flag (table.levels.tiersHaveFunction version name), table)
  | .symbol id => (.ofSymbol? (table.levels.byId? id), table)
  | .defaultPrecision kind => (.precision (table.defaults.get kind), table)

/-- Make requests from the first to the last. -/
def converse (table : TextTable) : List (Request String) → List Answer × TextTable
  | [] => ([], table)
  | request :: rest =>
      let (reply, next) := table.reply request
      let (answers, final) := next.converse rest
      (⟨reply, reply.spellings id⟩ :: answers, final)

end TextTable

end ShaderScope
