import ShaderScope.Ty.Basic

/-!
# The wording of types

How a diagnostic spells out a type: invariance, storage and precision where they
say something, then the array length, the shape and the kind.
-/

namespace ShaderScope

variable {ν : Type}

namespace Qualifiers

/-- The qualifiers that say something, each with a blank behind it. -/
def wording (q : Qualifiers) : String :=
  (if q.invariant then "invariant " else "") ++
    (if q.storage.isWritten then q.storage.name ++ " " else "") ++
    (if q.precision = .undefined then "" else q.precision.keyword ++ " ")

end Qualifiers

namespace Shape

/-- What a shape says before the kind, nothing for a single component. -/
def wording (s : Shape) : String :=
  if s.isMatrix then
    toString s.rows.toNat ++ "X" ++ toString s.columns.toNat ++ " matrix of "
  else if s.isVector then
    toString s.rows.toNat ++ "-component vector of "
  else
    ""

end Shape

namespace Ty

/-- A type as a diagnostic spells it. A user-defined kind is not named. -/
def wording (t : Ty ν) : String :=
  t.qualifiers.wording ++
    (match t.arrayLength with
      | none => ""
      | some n => "array[" ++ toString n.toNat ++ "] of ") ++
    t.shape.wording ++ t.kind.name

end Ty

end ShaderScope
