import ShaderScope.Memo.Store
import ShaderScope.Ty.Specifier

/-!
# Sessions over stored types

A session holds types over one store. Types are made, copied and changed,
definitions are made of copies of them, and questions are asked in between, of
types, of definitions and of the members of definitions. A plain session does the
same with plain types, which remember nothing and are asked from scratch each time.

Types are named by slot, in the order in which they were made, and definitions by
place. An operation on what is not there does nothing and has no answer.
-/

namespace ShaderScope.Memo

variable {ν : Type}

/-- What types and definitions are asked for. -/
inductive Question where
  | mangled
  | size
  | definitionSize
  | nesting

/-- A mangled name, a size or a nesting. -/
inductive Answer where
  | text (s : String)
  | size (n : UInt64)
  | nesting (n : UInt32)
  deriving DecidableEq

/-- What is changed about a type in place. -/
inductive Edit where
  | arrayLength (length : UInt32)
  | precision (precision : Precision)
  | storage (storage : Storage)

namespace Edit

/-- The change to a plain type. -/
def onTy (t : Ty ν) : Edit → Ty ν
  | arrayLength length => t.withArrayLength length
  | precision p => t.withPrecision p
  | storage s => t.withStorage s

/-- The same change to a stored type. -/
def onCell (c : Cell) : Edit → Cell
  | arrayLength length => c.withArrayLength length
  | precision p => c.withPrecision p
  | storage s => c.withStorage s

end Edit

namespace Entry

/-- Keep what a member remembers once its type has been asked. -/
def keepMember (e : Entry ν) (index : Nat) (mangled : Option String) : Entry ν :=
  { e with members := e.members.modify index (fun m => { m with cell := { m.cell with mangled } }) }

end Entry

namespace Store

/-- The member at an index of the definition at a place. -/
def member? (store : Store ν) (place index : Nat) : Option (Member ν) :=
  (store.entry? place).bind fun e => e.members[index]?

/-- The finished type of a specifier, whose definition is the one at a place. A
definition of another kind is dropped. -/
def ofSpecifier (store : Store ν) (s : Specifier ν) (place? : Option Nat) : Cell × Store ν :=
  let shape := Shape.ofSizes s.rows s.columns
  match place?.filter (fun place => (store.entry? place).any (fun e => e.form.kind == s.kind)) with
  | none => (ofKind s.kind shape s.arrayLength s.qualifiers, store)
  | some place => store.ofPlace place shape s.arrayLength s.qualifiers

end Store

namespace Question

/-- The answer of a plain type. -/
def ofTy (text : ν → String) (t : Ty ν) : Question → Answer
  | mangled => .text (t.mangled text)
  | size => .size t.size
  | definitionSize => .size t.definitionSize
  | nesting => .nesting t.nesting

/-- The answer of a plain definition, which has one size only. -/
def ofDefinition (text : ν → String) (d : Definition ν) : Question → Answer
  | mangled => .text (d.mangled text)
  | size => .size d.size
  | definitionSize => .size d.size
  | nesting => .nesting d.nesting

/-- The answer of a stored type, with what the type and the store are afterwards. -/
def ofCell (text : ν → String) (store : Store ν) (c : Cell) : Question → Answer × Cell × Store ν
  | mangled =>
      let (s, c, after) := store.mangled text c
      (.text s, c, after)
  | size =>
      let (n, after) := store.size c
      (.size n, c, after)
  | definitionSize =>
      let (n, after) := store.definitionSize c
      (.size n, c, after)
  | nesting => (.nesting c.nesting, c, store)

/-- The answer of a stored definition. -/
def ofPlace (text : ν → String) (store : Store ν) (place : Nat) : Question → Answer × Store ν
  | mangled =>
      let (s, after) := store.mangledAt text place
      (.text s, after)
  | size =>
      let (n, after) := store.sizeAt place
      (.size n, after)
  | definitionSize =>
      let (n, after) := store.sizeAt place
      (.size n, after)
  | nesting =>
      let (n, after) := store.nestingAt place
      (.nesting n, after)

end Question

/-- What is done in a session. -/
inductive Operation (ν : Type) where
  | ofKind (kind : Kind) (precision : Precision) (storage : Storage) (rows columns : UInt8)
  | ofDefinition (place : Nat)
  | ofSpecifier (s : Specifier ν) (place? : Option Nat)
  /-- Make a definition. Its members are copies of types that are held. -/
  | define (name : ν) (form : Form ν) (members : List (ν × Nat))
  /-- Copy several types, as a symbol is copied with all of its types. -/
  | copy (slots : List Nat)
  | copyMember (place index : Nat)
  | edit (slot : Nat) (edit : Edit)
  /-- Make the element of a type, from a copy. -/
  | element (slot : Nat)
  | ask (slot : Nat) (question : Question)
  | askMember (place index : Nat) (question : Question)
  | askDefinition (place : Nat) (question : Question)

/-- The types that are held, over one store. -/
structure Session (ν : Type) where
  store : Store ν
  cells : List Cell

namespace Session

/-- The session that holds nothing yet. -/
def empty : Session ν :=
  ⟨.empty, []⟩

/-- Hold one more type. -/
def hold (session : Session ν) (made : Cell × Store ν) : Session ν :=
  ⟨made.2, session.cells ++ [made.1]⟩

/-- Hold more types over the same store. -/
def holdAll (session : Session ν) (cells : List Cell) : Session ν :=
  { session with cells := session.cells ++ cells }

/-- Copies of held types as members, each under a name. -/
def members (session : Session ν) (names : List (ν × Nat)) : List (Member ν) :=
  names.filterMap fun (name, slot) => session.cells[slot]?.map fun c => ⟨name, c⟩

/-- Carry out an operation. Only questions have an answer. -/
def perform (text : ν → String) (session : Session ν) :
    Operation ν → Option Answer × Session ν
  | .ofKind kind precision storage rows columns =>
      let cell := Store.ofKind kind (.ofSizes rows columns) none { precision, storage }
      (none, session.holdAll [cell])
  | .ofDefinition place =>
      match session.store.entry? place with
      | none => (none, session)
      | some _ => (none, session.hold (session.store.ofPlace place default none {}))
  | .ofSpecifier s place? => (none, session.hold (session.store.ofSpecifier s place?))
  | .define name form members =>
      (none, { session with store := (session.store.add name form (session.members members)).2 })
  | .copy slots => (none, session.holdAll (slots.filterMap fun slot => session.cells[slot]?))
  | .copyMember place index =>
      (none, session.holdAll ((session.store.member? place index).toList.map Member.cell))
  | .edit slot edit =>
      (none, { session with cells := session.cells.modify slot edit.onCell })
  | .element slot => (none, session.holdAll (session.cells[slot]?.toList.map Cell.element))
  | .ask slot question =>
      match session.cells[slot]? with
      | none => (none, session)
      | some c =>
          let (answer, c, after) := question.ofCell text session.store c
          (some answer, ⟨after, session.cells.set slot c⟩)
  | .askMember place index question =>
      match session.store.member? place index with
      | none => (none, session)
      | some m =>
          let (answer, c, after) := question.ofCell text session.store m.cell
          let store := after.modify place (·.keepMember index c.mangled)
          (some answer, { session with store })
  | .askDefinition place question =>
      match session.store.entry? place with
      | none => (none, session)
      | some _ =>
          let (answer, after) := question.ofPlace text session.store place
          (some answer, { session with store := after })

/-- Perform operations one after the other, and list their answers. -/
def run (text : ν → String) (session : Session ν) :
    List (Operation ν) → List (Option Answer) × Session ν
  | [] => ([], session)
  | operation :: operations =>
      let (answer, next) := session.perform text operation
      let (answers, last) := run text next operations
      (answer :: answers, last)

end Session

/-- Definitions and types that remember nothing. -/
structure PlainSession (ν : Type) where
  definitions : List (Definition ν)
  types : List (Ty ν)

namespace PlainSession

/-- The plain session that holds nothing yet. -/
def empty : PlainSession ν :=
  ⟨[], []⟩

/-- Hold more types. -/
def holdAll (session : PlainSession ν) (types : List (Ty ν)) : PlainSession ν :=
  { session with types := session.types ++ types }

/-- The field at an index of the definition at a place. -/
def field? (session : PlainSession ν) (place index : Nat) : Option (Field ν) :=
  session.definitions[place]?.bind fun d => d.fields[index]?

/-- Held types as fields, each under a name. -/
def fields (session : PlainSession ν) (names : List (ν × Nat)) : List (Field ν) :=
  names.filterMap fun (name, slot) => session.types[slot]?.map fun t => ⟨name, t⟩

/-- The same operation on plain types. A question changes nothing. -/
def perform (text : ν → String) (session : PlainSession ν) :
    Operation ν → Option Answer × PlainSession ν
  | .ofKind kind precision storage rows columns =>
      (none, session.holdAll [.ofKind kind precision storage rows columns])
  | .ofDefinition place =>
      (none, session.holdAll (session.definitions[place]?.toList.map Ty.ofDefinition))
  | .ofSpecifier s place? =>
      let definition? := place?.bind fun place => session.definitions[place]?
      (none, session.holdAll [Specifier.toTy { s with definition? }])
  | .define name form members =>
      (none, { session with definitions :=
        session.definitions ++ [⟨name, form, session.fields members⟩] })
  | .copy slots => (none, session.holdAll (slots.filterMap fun slot => session.types[slot]?))
  | .copyMember place index =>
      (none, session.holdAll ((session.field? place index).toList.map Field.type))
  | .edit slot edit =>
      (none, { session with types := session.types.modify slot edit.onTy })
  | .element slot => (none, session.holdAll (session.types[slot]?.toList.map Ty.element))
  | .ask slot question =>
      (session.types[slot]?.map fun t => question.ofTy text t, session)
  | .askMember place index question =>
      ((session.field? place index).map fun f => question.ofTy text f.type, session)
  | .askDefinition place question =>
      (session.definitions[place]?.map fun d => question.ofDefinition text d, session)

/-- Perform operations one after the other, and list their answers. -/
def run (text : ν → String) (session : PlainSession ν) :
    List (Operation ν) → List (Option Answer) × PlainSession ν
  | [] => ([], session)
  | operation :: operations =>
      let (answer, next) := session.perform text operation
      let (answers, last) := run text next operations
      (answer :: answers, last)

end PlainSession

end ShaderScope.Memo
