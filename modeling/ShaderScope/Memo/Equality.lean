import ShaderScope.Memo.Store

/-!
# Equality of stored types

Types over one store are compared as plain types are, and definitions that stand
at different places may still be equal in structure. A definition is equal to
itself, so that types which share it are compared without looking at its members.
-/

namespace ShaderScope.Memo.Store

variable {ν : Type} [DecidableEq ν]

mutual

/-- Equality of the definitions at two places. -/
def sameAt (store : Store ν) (p q : Nat) : Bool :=
  p == q ||
    match store.entry? p, store.entry? q with
    | some d, some e =>
        d.name == e.name && d.form.isBlock == e.form.isBlock &&
          sameMembers store p d.members e.members
    | _, _ => false
termination_by (p, 1, 0)

/-- Equality of the types of members, the first of them at a given place. -/
def sameMembers (store : Store ν) (p : Nat) : List (Member ν) → List (Member ν) → Bool
  | [], [] => true
  | m :: ms, n :: ns =>
      m.cell.shape == n.cell.shape && m.cell.arrayLength == n.cell.arrayLength &&
        (match m.cell.base, n.cell.base with
          | .plain k, .plain l => k == l
          | .stored a, .stored b => if a < p then sameAt store a b else false
          | _, _ => false) &&
        sameMembers store p ms ns
  | _, _ => false
termination_by ms => (p, 0, ms.length)

end

/-- Equality up to array length. -/
def sameElement (store : Store ν) (c d : Cell) : Bool :=
  c.shape == d.shape &&
    match c.base, d.base with
    | .plain k, .plain l => k == l
    | .stored p, .stored q => store.sameAt p q
    | _, _ => false

/-- Equality of types. -/
def same (store : Store ν) (c d : Cell) : Bool :=
  c.arrayLength == d.arrayLength && store.sameElement c d

theorem sameAt_self (store : Store ν) (p : Nat) : store.sameAt p p = true := by
  rw [sameAt]
  simp

theorem same_self (store : Store ν) (c : Cell) : store.same c c = true := by
  cases h : c.base <;> simp [same, sameElement, h, sameAt_self]

end ShaderScope.Memo.Store
