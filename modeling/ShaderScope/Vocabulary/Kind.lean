/-!
# Kinds of value

A kind says what the components of a type are, or that the type is opaque (a
sampler) or user defined (a struct or a block). The constructors stand in the
order in which kinds are listed and compared.
-/

namespace ShaderScope

/-- The kind of a type: its components, its sampler, or the sort of its definition. -/
inductive Kind where
  | void | float | int | uint | bool
  | sampler2D | sampler3D | samplerCube | sampler2DArray | samplerExternalOES
  | isampler2D | isampler3D | isamplerCube | isampler2DArray
  | usampler2D | usampler3D | usamplerCube | usampler2DArray
  | sampler2DShadow | samplerCubeShadow | sampler2DArrayShadow
  | struct | block
  deriving DecidableEq

namespace Kind

/-- Every kind once, in ascending order of code. -/
def all : List Kind :=
  [void, float, int, uint, bool,
    sampler2D, sampler3D, samplerCube, sampler2DArray, samplerExternalOES,
    isampler2D, isampler3D, isamplerCube, isampler2DArray,
    usampler2D, usampler3D, usamplerCube, usampler2DArray,
    sampler2DShadow, samplerCubeShadow, sampler2DArrayShadow,
    struct, block]

theorem mem_all (k : Kind) : k ∈ all := by
  cases k <;> decide

/-- The number of a kind. Groups start at multiples of eight: components at 0,
samplers at 16, signed samplers at 24, unsigned ones at 32, shadow samplers at
40, user-defined kinds at 64. -/
def code : Kind → Nat
  | void => 0 | float => 1 | int => 2 | uint => 3 | bool => 4
  | sampler2D => 16 | sampler3D => 17 | samplerCube => 18 | sampler2DArray => 19
  | samplerExternalOES => 20
  | isampler2D => 24 | isampler3D => 25 | isamplerCube => 26 | isampler2DArray => 27
  | usampler2D => 32 | usampler3D => 33 | usamplerCube => 34 | usampler2DArray => 35
  | sampler2DShadow => 40 | samplerCubeShadow => 41 | sampler2DArrayShadow => 42
  | struct => 64 | block => 65

theorem code_inj {a b : Kind} : a.code = b.code ↔ a = b := by
  constructor
  · intro h
    cases a <;> cases b <;> first | rfl | cases h
  · intro h
    rw [h]

/-- How many kinds have a greater code. -/
def countAbove (k : Kind) : Nat :=
  all.countP (fun other => k.code < other.code)

/-- The place of a kind in `all`. -/
def position (k : Kind) : Nat :=
  all.idxOf k

theorem all_position (k : Kind) : all[k.position]? = some k := by
  cases k <;> rfl

/-- Kinds are numbered so that all samplers stand in one range. -/
def isSampler (k : Kind) : Bool :=
  16 ≤ k.code && k.code < 64

/-- A sampler of signed or unsigned integers. -/
def isIntegerSampler (k : Kind) : Bool :=
  24 ≤ k.code && k.code < 40

/-- A sampler that compares depths. -/
def isShadowSampler (k : Kind) : Bool :=
  40 ≤ k.code && k.code < 64

/-- The kinds of values that have a definition of their own. -/
def isAggregate (k : Kind) : Bool :=
  64 ≤ k.code

/-- The kinds of which vectors and matrices are made. -/
def isComponent (k : Kind) : Bool :=
  1 ≤ k.code && k.code ≤ 4

theorem isSampler_of_isIntegerSampler {k : Kind} (h : k.isIntegerSampler) : k.isSampler := by
  cases k <;> first | rfl | cases h

theorem isAggregate_iff (k : Kind) : k.isAggregate ↔ k = struct ∨ k = block := by
  cases k <;> decide

/-- The word for a kind in the shading language, or in a diagnostic. -/
def name : Kind → String
  | void => "void" | float => "float" | int => "int" | uint => "uint" | bool => "bool"
  | sampler2D => "sampler2D" | sampler3D => "sampler3D" | samplerCube => "samplerCube"
  | sampler2DArray => "sampler2DArray" | samplerExternalOES => "samplerExternalOES"
  | isampler2D => "isampler2D" | isampler3D => "isampler3D"
  | isamplerCube => "isamplerCube" | isampler2DArray => "isampler2DArray"
  | usampler2D => "usampler2D" | usampler3D => "usampler3D"
  | usamplerCube => "usamplerCube" | usampler2DArray => "usampler2DArray"
  | sampler2DShadow => "sampler2DShadow" | samplerCubeShadow => "samplerCubeShadow"
  | sampler2DArrayShadow => "sampler2DArrayShadow"
  | struct => "structure" | block => "interface block"

/-- The name together with the sort of thing that it names. -/
def qualifiedName (k : Kind) : String :=
  "BasicType::" ++ k.name

/-- The short tag that stands for a kind inside an encoded type name. `void` has
none, and user-defined kinds are encoded through their definitions. -/
def tag? : Kind → Option String
  | void => none
  | float => some "f" | int => some "i" | uint => some "u" | bool => some "b"
  | sampler2D => some "s2" | sampler3D => some "s3" | samplerCube => some "sC"
  | sampler2DArray => some "s2a" | samplerExternalOES => some "sext"
  | isampler2D => some "is2" | isampler3D => some "is3"
  | isamplerCube => some "isC" | isampler2DArray => some "is2a"
  | usampler2D => some "us2" | usampler3D => some "us3"
  | usamplerCube => some "usC" | usampler2DArray => some "us2a"
  | sampler2DShadow => some "s2s" | samplerCubeShadow => some "sCs"
  | sampler2DArrayShadow => some "s2as"
  | struct => none | block => none

theorem tag?_eq_none_iff (k : Kind) : k.tag? = none ↔ k = void ∨ k.isAggregate := by
  cases k <;> decide

end Kind

end ShaderScope
