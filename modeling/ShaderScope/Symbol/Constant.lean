/-!
# Constants

The folded components of a constant variable. Floats are kept as the words of
their 32-bit format, so that nothing is rounded and every NaN keeps its bits.
-/

namespace ShaderScope

/-- A 32-bit floating-point number by its word: a sign, eight bits of exponent
and twenty-three bits of fraction. -/
structure Binary32 where
  word : UInt32
  deriving DecidableEq

namespace Binary32

/-- The word without its sign. -/
def magnitude (x : Binary32) : Nat :=
  x.word.toNat % 0x80000000

/-- All exponent bits are set and the fraction is not zero. -/
def isNaN (x : Binary32) : Bool :=
  0x7F800000 < x.magnitude

/-- One of the two zeros. -/
def isZero (x : Binary32) : Bool :=
  x.magnitude == 0

/-- Numeric equality. A NaN equals nothing, and the two zeros are equal. -/
def equal (x y : Binary32) : Bool :=
  !x.isNaN && !y.isNaN && (x == y || (x.isZero && y.isZero))

theorem equal_self_iff (x : Binary32) : x.equal x ↔ x.isNaN = false := by
  cases h : x.isNaN <;> simp [equal, h]

theorem equal_comm (x y : Binary32) : x.equal y = y.equal x := by
  have h : (x == y) = (y == x) := Bool.beq_comm
  unfold equal
  rw [h, Bool.and_comm (!x.isNaN), Bool.and_comm x.isZero]

end Binary32

/-- One component of a folded value. -/
inductive Constant where
  | float (value : Binary32)
  | int (value : Int32)
  | uint (value : UInt32)
  | bool (value : Bool)

namespace Constant

/-- Equality of components, numeric on floats. Components of two kinds differ. -/
def equal : Constant → Constant → Bool
  | float x, float y => x.equal y
  | int x, int y => x == y
  | uint x, uint y => x == y
  | bool x, bool y => x == y
  | _, _ => false

/-- Equality of values, component by component. -/
def listEqual : List Constant → List Constant → Bool
  | [], [] => true
  | x :: xs, y :: ys => x.equal y && listEqual xs ys
  | _, _ => false

theorem length_eq_of_listEqual {xs ys : List Constant} (h : listEqual xs ys) :
    xs.length = ys.length := by
  induction xs generalizing ys with
  | nil =>
      cases ys with
      | nil => rfl
      | cons y ys => cases h
  | cons x xs ih =>
      cases ys with
      | nil => cases h
      | cons y ys =>
          simp only [listEqual, Bool.and_eq_true] at h
          rw [List.length_cons, List.length_cons, ih h.2]

end Constant

end ShaderScope
