/-!
# Layout qualifiers

The contents of a `layout(...)` qualifier: a location, and how the matrices and
the memory of a uniform block are laid out.
-/

namespace ShaderScope

/-- The order of a matrix inside a uniform block. -/
inductive MatrixPacking where
  | unspecified | rowMajor | columnMajor
  deriving DecidableEq

namespace MatrixPacking

instance : Inhabited MatrixPacking := ⟨unspecified⟩

/-- Every order of a matrix. -/
def all : List MatrixPacking :=
  [unspecified, rowMajor, columnMajor]

theorem mem_all (p : MatrixPacking) : p ∈ all := by
  cases p <;> decide

end MatrixPacking

/-- The memory layout of a uniform block. -/
inductive BlockStorage where
  | unspecified | shared | packed | std140
  deriving DecidableEq

namespace BlockStorage

instance : Inhabited BlockStorage := ⟨unspecified⟩

/-- Every memory layout. -/
def all : List BlockStorage :=
  [unspecified, shared, packed, std140]

theorem mem_all (s : BlockStorage) : s ∈ all := by
  cases s <;> decide

end BlockStorage

/-- What a `layout(...)` qualifier asks for. -/
structure Layout where
  location : Option UInt32 := none
  packing : MatrixPacking := .unspecified
  storage : BlockStorage := .unspecified
  deriving DecidableEq, Inhabited

namespace Layout

/-- Nothing was asked for. -/
def isEmpty (l : Layout) : Bool :=
  l == {}

theorem isEmpty_iff (l : Layout) :
    l.isEmpty ↔ l.location = none ∧ l.packing = .unspecified ∧ l.storage = .unspecified := by
  cases l
  simp [isEmpty]

/-- The layout that asks for a location only. -/
def atLocation (location : UInt32) : Layout :=
  { location := some location }

theorem not_isEmpty_atLocation (location : UInt32) : (atLocation location).isEmpty = false := by
  simp [isEmpty, atLocation]

end Layout

end ShaderScope
