import ShaderScope.Ty.Basic

/-!
# What a definition contains

A definition contains a type if one of its fields has that type, or if the
definition of a field contains it. A field's array length is part of its type
and hides nothing of the element.
-/

namespace ShaderScope

variable {ν : Type}

mutual

/-- Some type below this one passes the test. The type itself is not tested. -/
def Ty.contains (test : Ty ν → Bool) : Ty ν → Bool
  | ⟨base, _, _, _⟩ => base.contains test

/-- Some type below a base passes the test. -/
def Base.contains (test : Ty ν → Bool) : Base ν → Bool
  | .plain _ => false
  | .defined d => d.contains test

/-- Some field, at any depth, passes the test. -/
def Definition.contains (test : Ty ν → Bool) : Definition ν → Bool
  | ⟨_, _, fields⟩ => fieldsContain test fields

/-- Some field of a list, at any depth, passes the test. -/
def fieldsContain (test : Ty ν → Bool) : List (Field ν) → Bool
  | [] => false
  | ⟨_, type⟩ :: fields => test type || type.contains test || fieldsContain test fields

end

namespace Definition

/-- Some field, at any depth, is an array. -/
def containsArray (d : Definition ν) : Bool :=
  d.contains Ty.isArray

/-- Some field, at any depth, is of the kind. -/
def containsKind (d : Definition ν) (kind : Kind) : Bool :=
  d.contains (fun t => t.kind == kind)

/-- Some field, at any depth, is a sampler. -/
def containsSampler (d : Definition ν) : Bool :=
  d.contains Ty.isSampler

end Definition

namespace Ty

/-- There is an array below the type. -/
def containsArray (t : Ty ν) : Bool :=
  t.contains isArray

/-- There is a type of the kind below the type. -/
def containsKind (t : Ty ν) (kind : Kind) : Bool :=
  t.contains (fun u => u.kind == kind)

/-- There is a sampler below the type. -/
def containsSampler (t : Ty ν) : Bool :=
  t.contains isSampler

theorem contains_withArrayLength (test : Ty ν → Bool) (t : Ty ν) (n : UInt32) :
    (t.withArrayLength n).contains test = t.contains test := by
  obtain ⟨base, shape, arrayLength, qualifiers⟩ := t
  simp [withArrayLength, Ty.contains]

end Ty

end ShaderScope
