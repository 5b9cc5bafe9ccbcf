/-!
# Storage qualifiers

What a declared value is to its shader: a temporary, a constant, an input or an
output of a stage, a parameter, or one of the variables that the stage itself
provides.
-/

namespace ShaderScope

/-- A storage or parameter qualifier. -/
inductive Storage where
  | temporary | global | const
  | vertexAttribute | varyingIn | varyingOut | uniform
  | vertexIn | fragmentOut
  | smoothOut | flatOut | centroidOut
  | smoothIn | flatIn | centroidIn
  | paramIn | paramOut | paramInOut | constReadOnly
  | position | pointSize | fragCoord | frontFacing | pointCoord
  | fragColor | fragData | fragDepth | instanceId | vertexId
  deriving DecidableEq

namespace Storage

instance : Inhabited Storage := ⟨temporary⟩

/-- Every qualifier. -/
def all : List Storage :=
  [temporary, global, const,
    vertexAttribute, varyingIn, varyingOut, uniform,
    vertexIn, fragmentOut,
    smoothOut, flatOut, centroidOut,
    smoothIn, flatIn, centroidIn,
    paramIn, paramOut, paramInOut, constReadOnly,
    position, pointSize, fragCoord, frontFacing, pointCoord,
    fragColor, fragData, fragDepth, instanceId, vertexId]

theorem mem_all (s : Storage) : s ∈ all := by
  cases s <;> decide

/-- Valid on a function's parameter. -/
def isParameter : Storage → Bool
  | paramIn | paramOut | paramInOut | constReadOnly => true
  | _ => false

/-- Denotes an input of a shader stage. -/
def isShaderInput : Storage → Bool
  | vertexAttribute | varyingIn | vertexIn | smoothIn | flatIn | centroidIn => true
  | _ => false

/-- Denotes an output of a shader stage. -/
def isShaderOutput : Storage → Bool
  | varyingOut | fragmentOut | smoothOut | flatOut | centroidOut => true
  | _ => false

theorem not_isShaderOutput_of_isShaderInput {s : Storage} (h : s.isShaderInput) :
    s.isShaderOutput = false := by
  cases s <;> first | rfl | cases h

/-- The wording of a storage qualifier in a diagnostic. -/
def name : Storage → String
  | temporary => "Temporary"
  | global => "Global"
  | const => "const"
  | vertexAttribute => "attribute"
  | varyingIn => "varying"
  | varyingOut => "varying"
  | uniform => "uniform"
  | vertexIn => "in"
  | fragmentOut => "out"
  | smoothOut => "smooth out"
  | flatOut => "flat out"
  | centroidOut => "centroid out"
  | smoothIn => "smooth in"
  | flatIn => "flat in"
  | centroidIn => "centroid in"
  | paramIn => "in"
  | paramOut => "out"
  | paramInOut => "inout"
  | constReadOnly => "const"
  | position => "Position"
  | pointSize => "PointSize"
  | fragCoord => "FragCoord"
  | frontFacing => "FrontFacing"
  | pointCoord => "PointCoord"
  | fragColor => "FragColor"
  | fragData => "FragData"
  | fragDepth => "FragDepth"
  | instanceId => "InstanceID"
  | vertexId => "VertexID"

/-- Written out before a type. Temporaries and plain globals carry no word. -/
def isWritten : Storage → Bool
  | temporary | global => false
  | _ => true

end Storage

end ShaderScope
