/-!
# Precision qualifiers

Precisions are ordered from weakest to strongest, so that the maximum of two is
the precision of a computation that mixes them.
-/

namespace ShaderScope

/-- A precision qualifier. `undefined` means that none was given and no default
is in scope. -/
inductive Precision where
  | undefined | low | medium | high
  deriving DecidableEq

namespace Precision

instance : Inhabited Precision := ⟨undefined⟩

/-- Every precision, the weakest first. -/
def all : List Precision :=
  [undefined, low, medium, high]

theorem mem_all (p : Precision) : p ∈ all := by
  cases p <;> decide

/-- The keyword of a precision, empty for `undefined`. -/
def keyword : Precision → String
  | undefined => ""
  | low => "lowp"
  | medium => "mediump"
  | high => "highp"

/-- The strength of a precision. -/
def rank : Precision → Nat
  | undefined => 0
  | low => 1
  | medium => 2
  | high => 3

theorem rank_inj {p q : Precision} : p.rank = q.rank ↔ p = q := by
  cases p <;> cases q <;> decide

instance : Ord Precision := ⟨fun p q => compare p.rank q.rank⟩

/-- The stronger of two precisions. -/
def max (p q : Precision) : Precision :=
  if p.rank < q.rank then q else p

theorem rank_max (p q : Precision) : (p.max q).rank = Nat.max p.rank q.rank := by
  cases p <;> cases q <;> decide

end Precision

end ShaderScope
