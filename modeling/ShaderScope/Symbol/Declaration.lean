import ShaderScope.Ty.Mangling
import ShaderScope.Symbol.Constant

/-!
# Declarations

What a name is declared to be: a variable, a function, or the name of a struct or
a block. A declaration carries its types with it.
-/

namespace ShaderScope

/-- A variable, with its folded value if it is a constant. -/
structure Variable (ν : Type) where
  type : Ty ν
  constant : Option (List Constant) := none
  extension? : Option ν := none

/-- A parameter of a function. A prototype may leave it without a name. -/
structure Param (ν : Type) where
  name : Option ν
  type : Ty ν

/-- A prototype or a definition of a function. -/
structure Function (ν : Type) where
  result : Ty ν
  params : List (Param ν)
  defined : Bool := false
  extension? : Option ν := none

/-- What a name is declared to be. -/
inductive Declaration (ν : Type) where
  | var (v : Variable ν)
  | func (f : Function ν)
  | typeName (d : Definition ν)

variable {ν : Type}

namespace Variable

/-- The type names a struct or a block. -/
def hasUserType (v : Variable ν) : Bool :=
  v.type.definition?.isSome

end Variable

namespace Function

/-- The types of the parameters in order. -/
def paramTypes (f : Function ν) : List (Ty ν) :=
  f.params.map Param.type

/-- The signature of the function under a name. -/
def signature (text : ν → String) (name : String) (f : Function ν) : String :=
  ShaderScope.signature text name f.paramTypes

/-- Add a parameter behind the others. -/
def pushParam (f : Function ν) (p : Param ν) : Function ν :=
  { f with params := f.params ++ [p] }

/-- Mark that a body has been seen. -/
def define (f : Function ν) : Function ν :=
  { f with defined := true }

theorem paramTypes_pushParam (f : Function ν) (p : Param ν) :
    (f.pushParam p).paramTypes = f.paramTypes ++ [p.type] := by
  simp [paramTypes, pushParam]

theorem signature_define (text : ν → String) (name : String) (f : Function ν) :
    f.define.signature text name = f.signature text name :=
  rfl

end Function

namespace Declaration

/-- The declaration is that of a function. -/
def isFunction : Declaration ν → Bool
  | func _ => true
  | _ => false

/-- The wording of what is declared. -/
def wording : Declaration ν → String
  | var _ => "variable"
  | func _ => "function"
  | typeName d => if d.isBlock then "interface block" else "struct"

/-- A function of which only the types are known. -/
def prototype (result : Ty ν) (params : List (Ty ν)) : Declaration ν :=
  func { result, params := params.map (⟨none, ·⟩) }

/-- An integer constant. -/
def intConstant (value : Int32) : Declaration ν :=
  var { type := Ty.ofKind .int .undefined .const 1 1, constant := some [.int value] }

/-- A change to something that is already declared. -/
inductive Edit (ν : Type) where
  | resolveLength (length : UInt32)
  | define
  | pushParam (p : Param ν)

/-- Apply a change. Lengths are for variables, the other changes for functions,
and a change that does not fit the declaration does nothing. -/
def edit : Declaration ν → Edit ν → Declaration ν
  | var v, .resolveLength n => var { v with type := v.type.withArrayLength n }
  | func f, .define => func f.define
  | func f, .pushParam p => func (f.pushParam p)
  | d, _ => d

theorem isFunction_edit (d : Declaration ν) (e : Edit ν) :
    (d.edit e).isFunction = d.isFunction := by
  cases d <;> cases e <;> rfl

end Declaration

end ShaderScope
