import ShaderScope.Ty.Basic

/-!
# Type specifiers

A specifier is a type as a grammar reads it, part by part, before the declaration
that it belongs to is complete. Its parts need not agree with each other: a
definition is kept in the finished type only if the kind is that definition's.
-/

namespace ShaderScope

/-- The parts of a type as they were written. -/
structure Specifier (ν : Type) where
  kind : Kind
  qualifiers : Qualifiers := {}
  rows : UInt8 := 1
  columns : UInt8 := 1
  arrayLength : Option UInt32 := none
  definition? : Option (Definition ν) := none

namespace Specifier

variable {ν : Type}

/-- A single value of a kind. -/
def scalar (kind : Kind) : Specifier ν :=
  { kind }

/-- Several values of a kind in one column. -/
def vector (kind : Kind) (size : UInt8) : Specifier ν :=
  { kind, rows := size }

/-- A matrix of floats. -/
def matrix (rows columns : UInt8) : Specifier ν :=
  { kind := .float, rows, columns }

/-- A user-defined kind by its definition. -/
def ofDefinition (d : Definition ν) : Specifier ν :=
  { kind := d.kind, definition? := some d }

/-- The specifier with another precision. -/
def withPrecision (s : Specifier ν) (precision : Precision) : Specifier ν :=
  { s with qualifiers := { s.qualifiers with precision } }

/-- The specifier with another storage qualifier. -/
def withStorage (s : Specifier ν) (storage : Storage) : Specifier ν :=
  { s with qualifiers := { s.qualifiers with storage } }

/-- The specifier with another layout. -/
def withLayout (s : Specifier ν) (layout : Layout) : Specifier ν :=
  { s with qualifiers := { s.qualifiers with layout } }

/-- The array of that many elements. -/
def withArrayLength (s : Specifier ν) (length : UInt32) : Specifier ν :=
  { s with arrayLength := some length }

/-- The specifier of an invariant value. -/
def asInvariant (s : Specifier ν) : Specifier ν :=
  { s with qualifiers := { s.qualifiers with invariant := true } }

/-- Written as an array, sized or not. -/
def isArray (s : Specifier ν) : Bool :=
  s.arrayLength.isSome

/-- Written with more than one column. -/
def isMatrix (s : Specifier ν) : Bool :=
  1 < s.columns

/-- Written with one column of more than one row. -/
def isVector (s : Specifier ν) : Bool :=
  s.columns == 1 && 1 < s.rows

/-- The base of the finished type. A definition of another kind is dropped. -/
def base (s : Specifier ν) : Base ν :=
  match s.definition? with
  | none => .plain s.kind
  | some d => if d.kind = s.kind then .defined d else .plain s.kind

/-- The finished type. -/
def toTy (s : Specifier ν) : Ty ν where
  base := s.base
  shape := Shape.ofSizes s.rows s.columns
  arrayLength := s.arrayLength
  qualifiers := s.qualifiers

theorem kind_toTy (s : Specifier ν) : s.toTy.kind = s.kind := by
  simp only [Ty.kind, toTy, base]
  split
  · rfl
  · next d _ =>
      split
      · next h => exact h
      · rfl

theorem toTy_ofDefinition (d : Definition ν) : (ofDefinition d).toTy = Ty.ofDefinition d := by
  simp [ofDefinition, toTy, base, Ty.ofDefinition, Shape.ofSizes, Shape.atLeastOne]

end Specifier

end ShaderScope
