import ShaderScope.Vocabulary.Kind
import ShaderScope.Vocabulary.Precision
import ShaderScope.Vocabulary.Storage
import ShaderScope.Vocabulary.Layout

/-!
# Types of declared values

A type is what every variable, parameter, result and field carries: its base,
its shape, its array length, and the qualifiers it was declared with. The base is
a kind, or the definition of a struct or a block, whose fields carry types again.

Types are finite trees. A definition can only mention definitions that stand
before it, so the tree has no cycle and every question about a type is answered
by recursion on its fields.

## Implementation notes

The type of names is a parameter. A table stores types over identifiers, and
statements about what its strings mean use the same types over strings.
-/

namespace ShaderScope

/-- Rows and columns of a value. A vector is a single column, and opaque and
user-defined values have one row and one column. -/
structure Shape where
  rows : UInt8 := 1
  columns : UInt8 := 1
  rows_pos : 0 < rows := by decide
  columns_pos : 0 < columns := by decide
  deriving DecidableEq

namespace Shape

instance : Inhabited Shape := ⟨{}⟩

/-- A size of zero is taken for one. -/
def atLeastOne (n : UInt8) : UInt8 :=
  if n = 0 then 1 else n

theorem atLeastOne_pos (n : UInt8) : 0 < atLeastOne n := by
  unfold atLeastOne
  split
  · decide
  · next h =>
      rw [UInt8.lt_iff_toNat_lt]
      have hn : n.toNat ≠ 0 := fun h0 => h (UInt8.toNat_inj.mp h0)
      exact Nat.pos_of_ne_zero hn

theorem atLeastOne_of_pos {n : UInt8} (h : 0 < n) : atLeastOne n = n := by
  unfold atLeastOne
  rw [if_neg]
  rintro rfl
  exact absurd h (by decide)

/-- The shape with the given sizes, each at least one. -/
def ofSizes (rows columns : UInt8) : Shape where
  rows := atLeastOne rows
  columns := atLeastOne columns
  rows_pos := atLeastOne_pos rows
  columns_pos := atLeastOne_pos columns

/-- There is more than one column. -/
def isMatrix (s : Shape) : Bool :=
  1 < s.columns

/-- There is a single column of several rows. -/
def isVector (s : Shape) : Bool :=
  s.columns == 1 && 1 < s.rows

/-- There is a single component. -/
def isSingle (s : Shape) : Bool :=
  s.rows == 1 && s.columns == 1

/-- The number of components of a value of this shape. -/
def components (s : Shape) : Nat :=
  s.rows.toNat * s.columns.toNat

end Shape

/-- The qualifiers of a declaration. They never decide whether two types are equal. -/
structure Qualifiers where
  precision : Precision := .undefined
  storage : Storage := .temporary
  invariant : Bool := false
  layout : Layout := {}
  deriving DecidableEq, Inhabited

/-- The two forms of a definition. A block may name the one instance of itself. -/
inductive Form (ν : Type) where
  | struct
  | block (instanceName : Option ν) (storage : BlockStorage) (packing : MatrixPacking)

namespace Form

variable {ν : Type}

/-- Tells blocks from structs. -/
def isBlock : Form ν → Bool
  | struct => false
  | block .. => true

/-- The kind of the values that a definition of this form has. -/
def kind : Form ν → Kind
  | struct => .struct
  | block .. => .block

theorem kind_eq_kind_iff (a b : Form ν) : a.kind = b.kind ↔ a.isBlock = b.isBlock := by
  cases a <;> cases b <;> simp [kind, isBlock]

end Form

mutual

/-- The type of a declared value. -/
structure Ty (ν : Type) where
  base : Base ν
  shape : Shape
  arrayLength : Option UInt32
  qualifiers : Qualifiers

/-- What a type is made of. -/
inductive Base (ν : Type) where
  | plain (kind : Kind)
  | defined (definition : Definition ν)

/-- A struct or a block with its fields, in order of declaration. -/
structure Definition (ν : Type) where
  name : ν
  form : Form ν
  fields : List (Field ν)

/-- A named member of a definition. -/
structure Field (ν : Type) where
  name : ν
  type : Ty ν

end

/-- The length of an array that is declared without one. -/
def unsizedLength : UInt32 := 0

namespace Definition

variable {ν : Type}

/-- The kind of the values that are defined. -/
def kind (d : Definition ν) : Kind :=
  d.form.kind

/-- The definition is one of a block. -/
def isBlock (d : Definition ν) : Bool :=
  d.form.isBlock

/-- The first field of a name, with its place among the fields. -/
def field? [DecidableEq ν] (d : Definition ν) (name : ν) : Option (Nat × Field ν) :=
  match d.fields.findIdx? (fun f => f.name == name) with
  | none => none
  | some place => d.fields[place]?.map (place, ·)

end Definition

namespace Base

variable {ν : Type}

/-- The kind itself, or that of the definition. -/
def kind : Base ν → Kind
  | plain k => k
  | defined d => d.kind

/-- The definition, if there is one. -/
def definition? : Base ν → Option (Definition ν)
  | plain _ => none
  | defined d => some d

end Base

namespace Ty

variable {ν : Type}

/-- A type without a definition. -/
def ofKind (kind : Kind) (precision : Precision) (storage : Storage)
    (rows columns : UInt8) : Ty ν where
  base := .plain kind
  shape := Shape.ofSizes rows columns
  arrayLength := none
  qualifiers := { precision, storage }

/-- A temporary of one component. -/
def scalar (kind : Kind) : Ty ν :=
  ofKind kind .undefined .temporary 1 1

/-- A temporary of several components in one column. -/
def vector (kind : Kind) (size : UInt8) : Ty ν :=
  ofKind kind .undefined .temporary size 1

/-- A temporary of a user-defined kind. -/
def ofDefinition (d : Definition ν) : Ty ν where
  base := .defined d
  shape := {}
  arrayLength := none
  qualifiers := {}

/-- The kind of the values of a type, or of their elements. -/
def kind (t : Ty ν) : Kind :=
  t.base.kind

/-- The definition that a type is made of. -/
def definition? (t : Ty ν) : Option (Definition ν) :=
  t.base.definition?

/-- The definition of a struct type. -/
def struct? (t : Ty ν) : Option (Definition ν) :=
  t.definition?.filter (fun d => !d.isBlock)

/-- The definition of a block type. -/
def block? (t : Ty ν) : Option (Definition ν) :=
  t.definition?.filter (fun d => d.isBlock)

/-- The array of that many elements. On an array this resolves its length. -/
def withArrayLength (t : Ty ν) (length : UInt32) : Ty ν :=
  { t with arrayLength := some length }

/-- The same type without its array length. -/
def element (t : Ty ν) : Ty ν :=
  { t with arrayLength := none }

/-- The same type in another precision. -/
def withPrecision (t : Ty ν) (precision : Precision) : Ty ν :=
  { t with qualifiers := { t.qualifiers with precision } }

/-- The same type in another storage. -/
def withStorage (t : Ty ν) (storage : Storage) : Ty ν :=
  { t with qualifiers := { t.qualifiers with storage } }

/-- A matrix, or an array of them. -/
def isMatrix (t : Ty ν) : Bool :=
  t.shape.isMatrix

/-- A vector, or an array of them. -/
def isVector (t : Ty ν) : Bool :=
  t.shape.isVector

/-- A single value that has no fields. -/
def isScalar (t : Ty ν) : Bool :=
  t.shape.isSingle && !t.kind.isAggregate

/-- Declared as an array, with a length or without. -/
def isArray (t : Ty ν) : Bool :=
  t.arrayLength.isSome

/-- Declared as an array, with its length still open. -/
def isUnsizedArray (t : Ty ν) : Bool :=
  t.arrayLength == some unsizedLength

/-- A sampler of any kind, or an array of them. -/
def isSampler (t : Ty ν) : Bool :=
  t.kind.isSampler

theorem element_withArrayLength (t : Ty ν) (length : UInt32) :
    (t.withArrayLength length).element = t.element :=
  rfl

theorem element_of_not_isArray {t : Ty ν} (h : t.isArray = false) : t.element = t := by
  obtain ⟨base, shape, arrayLength, qualifiers⟩ := t
  cases arrayLength with
  | none => rfl
  | some n => cases h

/-- To show something of every type, show it of a type whose fields have it. -/
theorem inductionOnFields {P : Ty ν → Prop}
    (step : ∀ t, (∀ d, t.definition? = some d → ∀ f ∈ d.fields, P f.type) → P t) (t : Ty ν) :
    P t := by
  refine Ty.rec (motive_1 := P)
    (motive_2 := fun b => ∀ d, b.definition? = some d → ∀ f ∈ d.fields, P f.type)
    (motive_3 := fun d => ∀ f ∈ d.fields, P f.type) (motive_4 := fun f => P f.type)
    (motive_5 := fun fs => ∀ f ∈ fs, P f.type) ?_ ?_ ?_ ?_ ?_ ?_ ?_ t
  · intro base shape arrayLength qualifiers hbase
    exact step _ hbase
  · intro k d hd
    cases hd
  · intro d ih e he
    cases he
    exact ih
  · intro name form fields ih
    exact ih
  · intro name type ih
    exact ih
  · intro f hf
    cases hf
  · intro f fs hf hfs g hg
    rcases List.mem_cons.mp hg with rfl | hmem
    · exact hf
    · exact hfs g hmem

end Ty

end ShaderScope
