import ShaderScope.Ty.Basic

/-!
# Sizes and nesting

The size of a type counts its components: a definition adds up its fields, an
array repeats its element. The nesting of a type counts the definitions on the
deepest path through its fields. Both are machine words, and both stop at a
ceiling in place of wrapping around.
-/

namespace ShaderScope

variable {ν : Type}

/-- The greatest size. -/
def sizeCeiling : UInt64 := 0x7FFFFFFF

/-- Add the size of one more field, up to the ceiling. -/
def addSize (total size : UInt64) : UInt64 :=
  if sizeCeiling - total < size then sizeCeiling else total + size

/-- The size of an array of elements of a given size, up to the ceiling, or of a
single element. -/
def repeatSize (element : UInt64) : Option UInt32 → UInt64
  | none => element
  | some n => if element * n.toUInt64 ≤ sizeCeiling then element * n.toUInt64 else sizeCeiling

/-- One more, up to the greatest word. -/
def nestOnce (n : UInt32) : UInt32 :=
  if n = 0xFFFFFFFF then n else n + 1

namespace Shape

/-- The number of components as a word. -/
def size (s : Shape) : UInt64 :=
  s.rows.toUInt64 * s.columns.toUInt64

end Shape

mutual

/-- The size of a type in components, up to the ceiling. -/
def Ty.size : Ty ν → UInt64
  | ⟨base, shape, arrayLength, _⟩ => repeatSize (base.size shape) arrayLength

/-- The size of a value, or of all fields of a definition, which has no shape of its own. -/
def Base.size : Base ν → Shape → UInt64
  | .plain _, shape => shape.size
  | .defined d, _ => d.size

/-- The sum of the sizes of the fields, up to the ceiling. -/
def Definition.size : Definition ν → UInt64
  | ⟨_, _, fields⟩ => sizeFrom 0 fields

/-- A total with the sizes of the fields added to it one by one. -/
def sizeFrom (total : UInt64) : List (Field ν) → UInt64
  | [] => total
  | ⟨_, type⟩ :: fields => sizeFrom (addSize total type.size) fields

end

mutual

/-- How deeply definitions are nested in a type. -/
def Ty.nesting : Ty ν → UInt32
  | ⟨base, _, _, _⟩ => base.nesting

/-- Without a definition there is no nesting. -/
def Base.nesting : Base ν → UInt32
  | .plain _ => 0
  | .defined d => d.nesting

/-- One more than the deepest field. -/
def Definition.nesting : Definition ν → UInt32
  | ⟨_, _, fields⟩ => nestOnce (deepestField 0 fields)

/-- The deepest nesting of a field, or the given one where that is deeper. -/
def deepestField (deepest : UInt32) : List (Field ν) → UInt32
  | [] => deepest
  | ⟨_, type⟩ :: fields => deepestField (max deepest type.nesting) fields

end

namespace Ty

/-- The size of the definition of a type, zero where it has none. -/
def definitionSize (t : Ty ν) : UInt64 :=
  match t.definition? with
  | none => 0
  | some d => d.size

theorem size_element_ofDefinition (d : Definition ν) : (ofDefinition d).size = d.size := by
  simp [ofDefinition, Ty.size, Base.size, repeatSize]

theorem nesting_withArrayLength (t : Ty ν) (n : UInt32) :
    (t.withArrayLength n).nesting = t.nesting := by
  obtain ⟨base, shape, arrayLength, qualifiers⟩ := t
  simp [withArrayLength, Ty.nesting]

end Ty

end ShaderScope
