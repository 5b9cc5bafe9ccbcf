import ShaderScope.Ty.Specifier

/-!
# Default precisions

A scope may set the precision that floats and integers have where none is
written. Inner scopes override outer ones. Unsigned integers follow the signed
ones, and no other kind has a default.
-/

namespace ShaderScope

/-- The defaults that one scope has set. -/
structure PrecisionFrame where
  float : Option Precision := none
  int : Option Precision := none

namespace PrecisionFrame

/-- The frame of a scope that has not set anything. -/
def empty : PrecisionFrame := {}

/-- The default of the frame for a kind. -/
def get? (frame : PrecisionFrame) : Kind → Option Precision
  | .float => frame.float
  | .int => frame.int
  | .uint => frame.int
  | _ => none

/-- Set the default for floats or for integers. -/
def set (frame : PrecisionFrame) (kind : Kind) (precision : Precision) : PrecisionFrame :=
  match kind with
  | .float => { frame with float := some precision }
  | .int => { frame with int := some precision }
  | _ => frame

end PrecisionFrame

/-- One frame for each level, the innermost first. -/
structure Defaults where
  frames : List PrecisionFrame

namespace Defaults

/-- That many empty frames. -/
def ofLevels (count : Nat) : Defaults :=
  ⟨List.replicate count .empty⟩

/-- Open a scope with an empty frame. -/
def push (d : Defaults) : Defaults :=
  ⟨.empty :: d.frames⟩

/-- Drop the innermost frame. -/
def pop (d : Defaults) : Defaults :=
  ⟨d.frames.tail⟩

theorem pop_push (d : Defaults) : d.push.pop = d :=
  rfl

/-- Set a default in the innermost frame. -/
def set (d : Defaults) (kind : Kind) (precision : Precision) : Defaults :=
  match d.frames with
  | [] => d
  | frame :: outer => ⟨frame.set kind precision :: outer⟩

/-- The innermost default for a kind. -/
def get (d : Defaults) (kind : Kind) : Precision :=
  (d.frames.findSome? (fun frame => frame.get? kind)).getD .undefined

theorem get_push (d : Defaults) (kind : Kind) : d.push.get kind = d.get kind := by
  cases kind <;> rfl

end Defaults

namespace Specifier

variable {ν : Type}

/-- The type is one that a default precision is set for: a single float or
integer, or a sampler, for which the default is accepted and has no effect. -/
def takesDefault (s : Specifier ν) : Bool :=
  s.kind.isSampler ||
    ((s.kind == .float || s.kind == .int) && s.rows ≤ 1 && s.columns ≤ 1 && !s.isArray)

end Specifier

end ShaderScope
