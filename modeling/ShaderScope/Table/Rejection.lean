import ShaderScope.Name.Ident
import ShaderScope.Symbol.Basic

/-!
# Rejected declarations

Only storing a declaration can be rejected, and a lookup that finds nothing is no
error. A rejection names what was to be declared.
-/

namespace ShaderScope

/-- Why a declaration was not stored. -/
inductive Rejection (ν : Type) where
  /-- Its key is taken in the scope, by the symbol with this identity. -/
  | redeclared (name : ν) (existing : SymbolId)
  /-- No declaration is visible under the key that was to be rebound. -/
  | unresolved (key : ν)

namespace Rejection

/-- The name or the key that the rejection is about. -/
def subject {ν : Type} : Rejection ν → ν
  | redeclared name _ => name
  | unresolved key => key

/-- The wording of a rejection. -/
def message : Rejection Ident → String
  | redeclared name existing =>
      name.label ++ " is already declared in this scope as symbol " ++ existing.label
  | unresolved key => key.label ++ " has no visible declaration to rebind"

end Rejection

end ShaderScope
