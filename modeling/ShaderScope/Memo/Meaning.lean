import ShaderScope.Memo.Store

/-!
# What a stored type stands for

Without its remembered answers a stored type is a plain type again: the places
are replaced by the definitions that are there. Remembered answers are right if
they are the answers of the plain type.
-/

namespace ShaderScope.Memo.Store

variable {ν : Type}

mutual

/-- The definition at a place. -/
def definitionAt (store : Store ν) (place : Nat) : Option (Definition ν) :=
  match store.entry? place with
  | none => none
  | some e => some ⟨e.name, e.form, store.fieldsBelow place e.members⟩
termination_by (place, 1, 0)

/-- The fields of a definition at a place. Their types refer to older places. -/
def fieldsBelow (store : Store ν) (place : Nat) : List (Member ν) → List (Field ν)
  | [] => []
  | m :: members =>
      let base : Base ν :=
        match m.cell.base with
        | .plain kind => .plain kind
        | .stored older =>
            if older < place then ((store.definitionAt older).map .defined).getD (.plain .struct)
            else .plain .struct
      ⟨m.name, ⟨base, m.cell.shape, m.cell.arrayLength, m.cell.qualifiers⟩⟩ ::
        store.fieldsBelow place members
termination_by members => (place, 0, members.length)

end

/-- The plain type of a stored one. -/
def toTy (store : Store ν) (c : Cell) : Ty ν where
  base :=
    match c.base with
    | .plain kind => .plain kind
    | .stored place => ((store.definitionAt place).map .defined).getD (.plain .struct)
  shape := c.shape
  arrayLength := c.arrayLength
  qualifiers := c.qualifiers

theorem toTy_withArrayLength (store : Store ν) (c : Cell) (n : UInt32) :
    store.toTy (c.withArrayLength n) = (store.toTy c).withArrayLength n :=
  rfl

theorem toTy_element (store : Store ν) (c : Cell) :
    store.toTy c.element = (store.toTy c).element := by
  unfold Cell.element
  split
  · rfl
  · next h =>
      have hnone : c.arrayLength = none := by simpa using h
      simp [toTy, Ty.element, hnone]

end ShaderScope.Memo.Store
