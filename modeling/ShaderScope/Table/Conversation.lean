import ShaderScope.Symbol.Renaming
import ShaderScope.Table.Action

/-!
# Conversations with a table

Whoever uses a table has names as strings. The names of a request are pooled, the
request is made with their identifiers, and its answer is read as strings again,
together with the signatures and mangled names of the symbols in it. Between two
requests the pool may learn any other strings.

## Implementation notes

Outside of a table an identifier is a word, so that a slot that does not fit into a
word gets lost. The order in which a level is searched for an identity belongs to the
table and is not known to its user.
-/

namespace ShaderScope

/-- What a table can be asked for. -/
inductive Request (ν : Type) where
  | act (action : Action ν)
  /-- Declare something else under a key of the innermost level, in place. -/
  | replace (key : ν) (declaration : Declaration ν)
  | find (key : ν) (version : Version)
  | findBuiltin (key : ν) (version : Version)
  | findFunction (name : ν) (args : List (Ty ν)) (version : Version)
  | hasBuiltinFunction (name : ν) (version : Version)
  | symbol (id : SymbolId)
  | defaultPrecision (kind : Kind)

/-- What a request is answered. -/
inductive Reply (ν : Type) where
  | done (outcome : Outcome ν)
  | hit (symbol : Symbol ν) (level : Nat) (isBuiltin isSameScope : Bool)
  | symbol (symbol : Symbol ν)
  | missing
  | flag (holds : Bool)
  | precision (precision : Precision)

variable {ν μ : Type}

namespace Action

/-- Take an action to other names. -/
def map (f : ν → μ) : Action ν → Action μ
  | openScope => .openScope
  | closeScope => .closeScope
  | declare name declaration => .declare (f name) (declaration.map f)
  | rebind key version => .rebind (f key) version
  | declareBuiltin tier name declaration => .declareBuiltin tier name (declaration.map f)
  | edit key edits => .edit (f key) (edits.map (Declaration.Edit.map f))
  | setDefault specifier precision => .setDefault (specifier.map f) precision
  | intern s => .intern s

/-- The names in an action. What it pools itself is none of them. -/
def names : Action ν → List ν
  | declare name declaration => name :: declaration.names
  | rebind key _ => [key]
  | declareBuiltin _ _ declaration => declaration.names
  | edit key edits => key :: edits.flatMap Declaration.Edit.names
  | setDefault specifier _ => specifier.names
  | _ => []

end Action

namespace Request

/-- Take a request to other names. -/
def map (f : ν → μ) : Request ν → Request μ
  | act action => .act (action.map f)
  | replace key declaration => .replace (f key) (declaration.map f)
  | find key version => .find (f key) version
  | findBuiltin key version => .findBuiltin (f key) version
  | findFunction name args version => .findFunction (f name) (args.map (Ty.map f)) version
  | hasBuiltinFunction name version => .hasBuiltinFunction (f name) version
  | symbol id => .symbol id
  | defaultPrecision kind => .defaultPrecision kind

/-- The names in a request. -/
def names : Request ν → List ν
  | act action => action.names
  | replace key declaration => key :: declaration.names
  | find key _ => [key]
  | findBuiltin key _ => [key]
  | findFunction name args _ => name :: args.flatMap Ty.names
  | hasBuiltinFunction name _ => [name]
  | _ => []

end Request

/-- Take a rejection to other names. -/
def Rejection.map (f : ν → μ) : Rejection ν → Rejection μ
  | redeclared name existing => .redeclared (f name) existing
  | unresolved key => .unresolved (f key)

/-- Take an outcome to other names. -/
def Outcome.map (f : ν → μ) : Outcome ν → Outcome μ
  | opened => .opened
  | closed done => .closed done
  | declared result => .declared (result.mapError (Rejection.map f))
  | edited symbol => .edited (symbol.map (Symbol.map f))
  | defaultSet accepted => .defaultSet accepted
  | interned name => .interned (f name)

namespace Reply

/-- Take a reply to other names. -/
def map (f : ν → μ) : Reply ν → Reply μ
  | done outcome => .done (outcome.map f)
  | hit s level isBuiltin isSameScope => .hit (s.map f) level isBuiltin isSameScope
  | symbol s => .symbol (s.map f)
  | missing => .missing
  | flag holds => .flag holds
  | precision p => .precision p

/-- The symbol that a reply shows. -/
def symbol? : Reply ν → Option (Symbol ν)
  | done (.edited found) => found
  | hit s _ _ _ => some s
  | symbol s => some s
  | _ => none

/-- The request was a declaration, and it has been stored. -/
def stores : Reply ν → Bool
  | done (.declared (.ok _)) => true
  | _ => false

/-- The request was an action, and it has been rejected. -/
def isRejected : Reply ν → Bool
  | done outcome => outcome.isRejected
  | _ => false

/-- The reply to a lookup. -/
def ofHit? : Option Hit → Reply Ident
  | none => .missing
  | some found => .hit found.symbol found.level found.isBuiltin found.isSameScope

/-- The reply to a question about one symbol. -/
def ofSymbol? : Option (Symbol ν) → Reply ν
  | none => .missing
  | some s => .symbol s

end Reply

/-- A reply in strings, with the spellings of the symbol in it. -/
structure Answer where
  reply : Reply String
  spellings : List String

/-- The spellings of the symbol that a reply shows. -/
def Reply.spellings (text : ν → String) (reply : Reply ν) : List String :=
  (reply.symbol?.map (Symbol.spellings text)).getD []

/-- Read a reply in strings. -/
def Reply.read (text : ν → String) (reply : Reply ν) : Answer :=
  ⟨reply.map text, reply.spellings text⟩

/-- How many declarations have been stored, going by the answers. -/
def storedIn (answers : List Answer) : Nat :=
  answers.countP (fun answer => answer.reply.stores)

/-- The identifier of a string that is stored. -/
def Pool.ident (pool : Pool) (s : String) : Ident :=
  (pool.ident? s).getD .empty

/-- What is left of an identifier that is kept as a word. -/
def Ident.kept (i : Ident) : Ident :=
  .ofRaw i.raw

namespace Table

/-- Make a request. The order is that in which a level is searched for an identity. -/
def reply (table : Table) (scan : Scan Ident) : Request Ident → Reply Ident × Table
  | .act action =>
      let (outcome, after) := table.perform action
      (.done outcome, after)
  | .replace key declaration =>
      match table.levels.at? table.current key with
      | none => (.done (.edited none), table)
      | some symbol =>
          (.done (.edited (some { symbol with declaration })),
            { table with levels := table.levels.modifyCurrent key ({ · with declaration }) })
  | .find key version => (.ofHit? (table.find? key version), table)
  | .findBuiltin key version => (.ofSymbol? (table.findBuiltin? key version), table)
  | .findFunction name args version => (.ofHit? (table.findFunction? name args version), table)
  | .hasBuiltinFunction name version => (.flag (table.hasBuiltinFunction name version), table)
  | .symbol id => (.ofSymbol? (table.symbol? id scan), table)
  | .defaultPrecision kind => (.precision (table.defaultPrecision kind), table)

/-- The table with more strings in its pool. -/
def learn (table : Table) (strings : List String) : Table :=
  { table with pool := (table.pool.internAll strings).2 }

/-- Pool the names of a request, make it, and read the answer. -/
def ask (table : Table) (scan : Scan Ident) (request : Request String) : Answer × Table :=
  let known := table.learn request.names
  let (reply, after) := known.reply scan (request.map fun s => (known.pool.ident s).kept)
  (reply.read fun i => after.pool.text i.kept, after)

/-- Make requests from the first to the last. Before each of them, the pool learns
the strings that come with it. -/
def converse (table : Table) (scan : Scan Ident) :
    List (List String × Request String) → List Answer × Table
  | [] => ([], table)
  | (strings, request) :: rest =>
      let (answer, next) := (table.learn strings).ask scan request
      let (answers, final) := next.converse scan rest
      (answer :: answers, final)

end Table

end ShaderScope
