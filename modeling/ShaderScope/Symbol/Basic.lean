import ShaderScope.Symbol.Declaration

/-!
# Symbols

A symbol is a declaration under a name, with an identity of its own. Identities
are numbered in the order in which declarations are stored, and a copy that is
placed into another scope gets a new one.
-/

namespace ShaderScope

/-- The identity of a symbol within one table. -/
structure SymbolId where
  number : UInt32
  deriving DecidableEq

namespace SymbolId

/-- The wording of an identity in a diagnostic. -/
def label (id : SymbolId) : String :=
  "#" ++ toString id.number.toNat

end SymbolId

/-- A declaration under a name. -/
structure Symbol (ν : Type) where
  id : SymbolId
  name : ν
  declaration : Declaration ν

namespace Symbol

variable {ν : Type}

/-- The symbol is that of a function. -/
def isFunction (s : Symbol ν) : Bool :=
  s.declaration.isFunction

/-- A copy with an identity of its own. Changes to the copy leave the symbol as it is. -/
def rebind (s : Symbol ν) (id : SymbolId) : Symbol ν :=
  { s with id }

/-- The symbol after a change to what it declares. -/
def edit (s : Symbol ν) (e : Declaration.Edit ν) : Symbol ν :=
  { s with declaration := s.declaration.edit e }

/-- Several changes, from the first to the last. -/
def editAll (s : Symbol ν) (es : List (Declaration.Edit ν)) : Symbol ν :=
  es.foldl edit s

theorem isFunction_editAll (s : Symbol ν) (es : List (Declaration.Edit ν)) :
    (s.editAll es).isFunction = s.isFunction := by
  induction es generalizing s with
  | nil => rfl
  | cons e es ih =>
      have hstep := ih (s.edit e)
      rw [editAll, List.foldl_cons]
      exact hstep.trans (Declaration.isFunction_edit s.declaration e)

theorem id_editAll (s : Symbol ν) (es : List (Declaration.Edit ν)) : (s.editAll es).id = s.id := by
  induction es generalizing s with
  | nil => rfl
  | cons e es ih =>
      rw [editAll, List.foldl_cons]
      exact ih (s.edit e)

theorem name_editAll (s : Symbol ν) (es : List (Declaration.Edit ν)) :
    (s.editAll es).name = s.name := by
  induction es generalizing s with
  | nil => rfl
  | cons e es ih =>
      rw [editAll, List.foldl_cons]
      exact ih (s.edit e)

end Symbol

end ShaderScope
