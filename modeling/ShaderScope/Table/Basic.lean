import ShaderScope.Name.Pool
import ShaderScope.Table.Levels
import ShaderScope.Table.Defaults

/-!
# The table

A table resolves the names of one shader. It keeps the pool of names, the levels
with their symbols, the default precisions and the number of the next symbol.

A declaration is stored under its name, a function under its signature, so that
overloads live beside each other. An operation that can be rejected answers with
the outcome and the table after it. A rejected declaration leaves the levels, the
defaults and the next number as they were. Its signature stays in the pool.

## Implementation notes

Numbers of symbols are words that are handed out in order, and only a stored
declaration uses one up.
-/

namespace ShaderScope

/-- The names, scopes and defaults of one shader. -/
structure Table where
  pool : Pool
  levels : Levels Ident
  defaults : Defaults
  nextNumber : UInt32

/-- What a lookup finds, and where. -/
structure Hit where
  symbol : Symbol Ident
  level : Nat
  isBuiltin : Bool
  isSameScope : Bool

namespace Symbol

/-- The key under which a level stores a symbol: its name, or the signature of a
function, which is pooled for that. -/
def levelKey (s : Symbol Ident) (pool : Pool) : Ident × Pool :=
  match s.declaration with
  | .func f => pool.intern (f.signature pool.text (pool.text s.name))
  | .var _ => (s.name, pool)
  | .typeName _ => (s.name, pool)

end Symbol

namespace Table

/-- The table over a pool, with three empty tiers and no open scope. -/
def ofPool (pool : Pool) : Table where
  pool := pool
  levels := .fresh
  defaults := .ofLevels globalLevel
  nextNumber := 1

/-- The identity of the next declaration that is stored. -/
def nextId (table : Table) : SymbolId :=
  ⟨table.nextNumber⟩

/-- The innermost level. -/
def current (table : Table) : Nat :=
  table.levels.current

theorem current_lt (table : Table) : table.current < table.levels.scopes.size :=
  table.levels.current_lt

theorem tier_lt (table : Table) (tier : Tier) : tier.level < table.levels.scopes.size :=
  table.levels.level_lt tier

/-- Open a scope. -/
def openScope (table : Table) : Table :=
  { table with levels := table.levels.push, defaults := table.defaults.push }

/-- Close the innermost scope and drop what it declares. There has to be one. -/
def closeScope? (table : Table) : Option Table :=
  table.levels.pop?.map (fun levels => { table with levels, defaults := table.defaults.pop })

/-- Store a symbol at a level. -/
def store (table : Table) (level : Nat) (h : level < table.levels.scopes.size)
    (symbol : Symbol Ident) : Except (Rejection Ident) SymbolId × Table :=
  let (key, pool) := symbol.levelKey table.pool
  match table.levels.declare level h key symbol with
  | .error rejection => (.error rejection, { table with pool })
  | .ok levels => (.ok symbol.id, { table with pool, levels, nextNumber := table.nextNumber + 1 })

/-- Declare a name in the innermost level. -/
def declare (table : Table) (name : Ident) (declaration : Declaration Ident) :
    Except (Rejection Ident) SymbolId × Table :=
  table.store table.current table.current_lt ⟨table.nextId, name, declaration⟩

/-- Resolve a key from the innermost level down. The key of a function is its
signature. -/
def find? (table : Table) (key : Ident) (version : Version) : Option Hit :=
  (table.levels.find? table.current version key).map fun (level, symbol) =>
    { symbol
      level
      isBuiltin := level ≤ lastTierLevel
      isSameScope := level = table.current }

/-- Resolve a key in the tiers alone. -/
def findBuiltin? (table : Table) (key : Ident) (version : Version) : Option (Symbol Ident) :=
  (table.levels.find? lastTierLevel version key).map Prod.snd

/-- Resolve a call by the name of the function and the types of its arguments.
A signature that was never pooled belongs to no declaration. -/
def findFunction? (table : Table) (name : Ident) (args : List (Ty Ident)) (version : Version) :
    Option Hit :=
  (table.pool.ident? (signature table.pool.text (table.pool.text name) args)).bind
    (fun key => table.find? key version)

/-- A built-in function of this name is visible, whatever its parameters. -/
def hasBuiltinFunction (table : Table) (name : Ident) (version : Version) : Bool :=
  table.levels.tiersHaveFunction version name

/-- Place a copy of what a key resolves to into the innermost level. -/
def rebind (table : Table) (key : Ident) (version : Version) :
    Except (Rejection Ident) SymbolId × Table :=
  match table.find? key version with
  | none => (.error (.unresolved key), table)
  | some hit =>
      table.store table.current table.current_lt (hit.symbol.rebind table.nextId)

/-- Declare a name in a tier. -/
def declareBuiltin (table : Table) (tier : Tier) (name : String)
    (declaration : Declaration Ident) : Except (Rejection Ident) SymbolId × Table :=
  let (ident, pool) := table.pool.intern name
  { table with pool }.store tier.level (table.levels.level_lt tier)
    ⟨table.nextId, ident, declaration⟩

/-- Change the symbol under a key in the innermost level, which has to be there.
The key stays as it is, also where the change alters a signature. -/
def edit? (table : Table) (key : Ident) (edits : List (Declaration.Edit Ident)) :
    Option (Symbol Ident × Table) :=
  (table.levels.at? table.current key).map fun symbol =>
    (symbol.editAll edits,
      { table with levels := table.levels.modifyCurrent key (fun s => s.editAll edits) })

/-- The stored symbol with an identity. -/
def symbol? (table : Table) (id : SymbolId) (scan : Scan Ident := .newestFirst) :
    Option (Symbol Ident) :=
  table.levels.byId? id scan

/-- The identity belongs to a declaration that this table has stored at some time. -/
def hasIssued (table : Table) (id : SymbolId) : Bool :=
  1 ≤ id.number && id.number < table.nextNumber

/-- Set the default precision of the innermost scope for a type. The type has to
be one that takes a default. -/
def setDefaultPrecision? (table : Table) (s : Specifier Ident) (precision : Precision) :
    Option Table :=
  if s.takesDefault then
    some { table with defaults := table.defaults.set s.kind precision }
  else
    none

/-- The default precision for a kind. -/
def defaultPrecision (table : Table) (kind : Kind) : Precision :=
  table.defaults.get kind

end Table

end ShaderScope
