import ShaderScope.Ty.Mangling
import ShaderScope.Ty.Size

/-!
# Remembered answers

Many types share a definition, and the same questions are asked about it again
and again. A store keeps each definition once, in a place of its own, beside the
answers that it has given so far. A type refers to its definition by the place,
and carries its own mangled name once that has been asked for.

A copy of a type takes the remembered name along. An operation that changes what
the name depends on forgets it, and all other operations keep it.

## Implementation notes

The members of a definition refer to older places only. A reference that is not
older answers as an empty definition does, so that every question ends.
-/

namespace ShaderScope.Memo

/-- A kind, or the place of a definition. -/
inductive CellBase where
  | plain (kind : Kind)
  | stored (place : Nat)

/-- A type that refers to its definition by place. Its nesting is computed when
it is made, and its mangled name when it is first asked for. -/
structure Cell where
  base : CellBase
  shape : Shape
  arrayLength : Option UInt32
  qualifiers : Qualifiers
  nesting : UInt32
  mangled : Option String

namespace Cell

/-- Make an array, or resolve the length of one. The mangled name is forgotten. -/
def withArrayLength (c : Cell) (length : UInt32) : Cell :=
  { c with arrayLength := some length, mangled := none }

/-- Remove the array length. The mangled name is forgotten if there was one. -/
def element (c : Cell) : Cell :=
  if c.arrayLength.isSome then { c with arrayLength := none, mangled := none } else c

/-- Change the precision. What is remembered does not depend on it. -/
def withPrecision (c : Cell) (precision : Precision) : Cell :=
  { c with qualifiers := { c.qualifiers with precision } }

/-- Change the storage, with the memories left as they are. -/
def withStorage (c : Cell) (storage : Storage) : Cell :=
  { c with qualifiers := { c.qualifiers with storage } }

/-- The mangled name around the encoding of the base. -/
def assemble (c : Cell) (base : String) : String :=
  String.ofList c.shape.mark ++ base ++
    String.ofList (c.shape.sizeChars ++ lengthChars c.arrayLength)

/-- Keep a mangled name. -/
def remember (c : Cell) (s : String) : Cell :=
  { c with mangled := some s }

end Cell

variable {ν : Type}

/-- A member of a stored definition. -/
structure Member (ν : Type) where
  name : ν
  cell : Cell

/-- A definition with the answers that it has given. -/
structure Entry (ν : Type) where
  name : ν
  form : Form ν
  members : List (Member ν)
  mangled : Option String := none
  size : Option UInt64 := none
  nesting : Option UInt32 := none

namespace Entry

/-- Keep the mangled name of a member. -/
def rememberMember (e : Entry ν) (index : Nat) (s : String) : Entry ν :=
  { e with members := e.members.modify index (fun m => { m with cell := m.cell.remember s }) }

end Entry

/-- Definitions by place, the oldest first. -/
structure Store (ν : Type) where
  entries : Array (Entry ν)

namespace Store

/-- The store without any definition. -/
def empty : Store ν :=
  ⟨#[]⟩

/-- The definition at a place, with what it remembers. -/
def entry? (store : Store ν) (place : Nat) : Option (Entry ν) :=
  store.entries[place]?

/-- The kind of a type. -/
def kind (store : Store ν) (c : Cell) : Kind :=
  match c.base with
  | .plain kind => kind
  | .stored place => ((store.entry? place).map (fun e => e.form.kind)).getD .struct

/-- Store a definition, without any answer, in the place after the last one. -/
def add (store : Store ν) (name : ν) (form : Form ν) (members : List (Member ν)) :
    Nat × Store ν :=
  (store.entries.size, ⟨store.entries.push { name, form, members }⟩)

/-- Change the entry at a place. -/
def modify (store : Store ν) (place : Nat) (change : Entry ν → Entry ν) : Store ν :=
  ⟨store.entries.modify place change⟩

/-- The nesting of a definition, from the nesting of its members. -/
def nestingAt (store : Store ν) (place : Nat) : UInt32 × Store ν :=
  match store.entry? place with
  | none => (0, store)
  | some e =>
      match e.nesting with
      | some n => (n, store)
      | none =>
          let n := nestOnce (e.members.foldl (fun deepest m => max deepest m.cell.nesting) 0)
          (n, store.modify place (fun e => { e with nesting := some n }))

mutual

/-- The mangled name of a definition, from the mangled names of its members. -/
def mangledAt (text : ν → String) (store : Store ν) (place : Nat) : String × Store ν :=
  match store.entry? place with
  | none => ("", store)
  | some e =>
      match e.mangled with
      | some s => (s, store)
      | none =>
          let start := String.ofList e.form.mark ++ text e.name
          let (s, after) := mangledMembers text store place 0 start e.members
          (s, after.modify place (fun e => { e with mangled := some s }))
termination_by (place, 1, 0)

/-- A text followed by the mangled names of the members at a place from an index
on, each behind a hyphen. Names that are not there yet are remembered. -/
def mangledMembers (text : ν → String) (store : Store ν) (place index : Nat) (start : String) :
    List (Member ν) → String × Store ν
  | [] => (start, store)
  | m :: members =>
      let (s, after) : String × Store ν :=
        match m.cell.mangled with
        | some s => (s, store)
        | none =>
            let (base, after) : String × Store ν :=
              match m.cell.base with
              | .plain kind => (String.ofList kind.tagChars, store)
              | .stored older =>
                  if older < place then mangledAt text store older else ("", store)
            let s := m.cell.assemble base
            (s, after.modify place (fun e => e.rememberMember index s))
      mangledMembers text after place (index + 1) (start ++ "-" ++ s) members
termination_by members => (place, 0, members.length)

end

mutual

/-- The size of a definition, from the sizes of its members. -/
def sizeAt (store : Store ν) (place : Nat) : UInt64 × Store ν :=
  match store.entry? place with
  | none => (0, store)
  | some e =>
      match e.size with
      | some n => (n, store)
      | none =>
          let (n, after) := sizeMembers store place 0 e.members
          (n, after.modify place (fun e => { e with size := some n }))
termination_by (place, 1, 0)

/-- A total with the sizes of members at a place added to it. -/
def sizeMembers (store : Store ν) (place : Nat) (total : UInt64) :
    List (Member ν) → UInt64 × Store ν
  | [] => (total, store)
  | m :: members =>
      let (element, after) : UInt64 × Store ν :=
        match m.cell.base with
        | .plain _ => (m.cell.shape.size, store)
        | .stored older => if older < place then sizeAt store older else (0, store)
      sizeMembers after place (addSize total (repeatSize element m.cell.arrayLength)) members
termination_by members => (place, 0, members.length)

end

/-- The mangled name of a type. The type that comes back remembers it. -/
def mangled (text : ν → String) (store : Store ν) (c : Cell) : String × Cell × Store ν :=
  match c.mangled with
  | some s => (s, c, store)
  | none =>
      match c.base with
      | .plain kind =>
          let s := c.assemble (String.ofList kind.tagChars)
          (s, c.remember s, store)
      | .stored place =>
          let (base, after) := store.mangledAt text place
          let s := c.assemble base
          (s, c.remember s, after)

/-- The size of the definition of a type, zero where it has none. -/
def definitionSize (store : Store ν) (c : Cell) : UInt64 × Store ν :=
  match c.base with
  | .plain _ => (0, store)
  | .stored place => store.sizeAt place

/-- The size of a type. -/
def size (store : Store ν) (c : Cell) : UInt64 × Store ν :=
  match c.base with
  | .plain _ => (repeatSize c.shape.size c.arrayLength, store)
  | .stored place =>
      let (element, after) := store.sizeAt place
      (repeatSize element c.arrayLength, after)

/-- A type without a definition. -/
def ofKind (kind : Kind) (shape : Shape) (arrayLength : Option UInt32)
    (qualifiers : Qualifiers) : Cell :=
  ⟨.plain kind, shape, arrayLength, qualifiers, 0, none⟩

/-- A type with the definition at a place, whose nesting is asked for at once. -/
def ofPlace (store : Store ν) (place : Nat) (shape : Shape) (arrayLength : Option UInt32)
    (qualifiers : Qualifiers) : Cell × Store ν :=
  let (nesting, after) := store.nestingAt place
  (⟨.stored place, shape, arrayLength, qualifiers, nesting, none⟩, after)

/-- A type as a declaration gives it, whose definition, if it has one, is stored
at a place. -/
def ofTy (store : Store ν) (place : Nat) (t : Ty ν) : Cell × Store ν :=
  match t.base with
  | .plain kind => (ofKind kind t.shape t.arrayLength t.qualifiers, store)
  | .defined _ => store.ofPlace place t.shape t.arrayLength t.qualifiers

end Store

end ShaderScope.Memo
