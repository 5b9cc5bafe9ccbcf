import ShaderScope.Proofs.Issued
import ShaderScope.Ty.Basic

/-!
# Well-formed types

What holds of every type that is built from a shader: its sizes are single
digits, it has a definition exactly if its kind calls for one, and the names of
definitions are issued words. All of this is asked of the type itself and of the
types of its fields at every depth.
-/

namespace ShaderScope

variable {ν : Type}

/-- The types of the fields of a definition, and of the fields of those. -/
inductive Definition.Reaches : Definition ν → Ty ν → Prop where
  | field {d : Definition ν} {f : Field ν} (h : f ∈ d.fields) : Reaches d f.type
  | deeper {d e : Definition ν} {f : Field ν} {u : Ty ν} (h : f ∈ d.fields)
      (hdef : f.type.definition? = some e) (hreach : Reaches e u) : Reaches d u

namespace Ty

/-- The type itself and every type that its definition reaches. -/
def Within (t u : Ty ν) : Prop :=
  u = t ∨ ∃ d, t.definition? = some d ∧ d.Reaches u

/-- Something holds of every type within a type. -/
def Everywhere (P : Ty ν → Prop) (t : Ty ν) : Prop :=
  ∀ u, t.Within u → P u

theorem Everywhere.self {P : Ty ν → Prop} {t : Ty ν} (h : t.Everywhere P) : P t :=
  h t (.inl rfl)

theorem Everywhere.field {P : Ty ν → Prop} {t : Ty ν} (h : t.Everywhere P) {d : Definition ν}
    (hd : t.definition? = some d) {f : Field ν} (hf : f ∈ d.fields) : f.type.Everywhere P := by
  intro u hu
  apply h
  rcases hu with rfl | ⟨e, he, hreach⟩
  · exact .inr ⟨d, hd, .field hf⟩
  · exact .inr ⟨d, hd, .deeper hf he hreach⟩

theorem everywhere_iff {P : Ty ν → Prop} {t : Ty ν} :
    t.Everywhere P ↔
      P t ∧ ∀ d, t.definition? = some d → ∀ f ∈ d.fields, f.type.Everywhere P := by
  constructor
  · intro h
    exact ⟨h.self, fun d hd f hf => h.field hd hf⟩
  · rintro ⟨hself, hfields⟩ u (rfl | ⟨d, hd, hreach⟩)
    · exact hself
    · cases hreach with
      | field hf => exact (hfields d hd _ hf).self
      | deeper hf he hreach => exact hfields d hd _ hf u (.inr ⟨_, he, hreach⟩)

theorem Everywhere.mono {P Q : Ty ν → Prop} (hPQ : ∀ u, P u → Q u) {t : Ty ν}
    (h : t.Everywhere P) : t.Everywhere Q :=
  fun u hu => hPQ u (h u hu)

theorem definition?_of_base {t : Ty ν} {d : Definition ν} (h : t.base = .defined d) :
    t.definition? = some d := by
  rw [definition?, h]
  rfl

theorem definition?_of_plain {t : Ty ν} {k : Kind} (h : t.base = .plain k) :
    t.definition? = none := by
  rw [definition?, h]
  rfl

theorem everywhere_of_plain {P : Ty ν → Prop} {t : Ty ν} {k : Kind} (hbase : t.base = .plain k)
    (h : P t) : t.Everywhere P := by
  refine everywhere_iff.mpr ⟨h, ?_⟩
  intro d hd
  rw [definition?_of_plain hbase] at hd
  cases hd

theorem everywhere_of_defined {P : Ty ν → Prop} {t : Ty ν} {d : Definition ν}
    (hbase : t.base = .defined d) (h : P t) (hfields : ∀ f ∈ d.fields, f.type.Everywhere P) :
    t.Everywhere P := by
  refine everywhere_iff.mpr ⟨h, ?_⟩
  intro e he
  rw [definition?_of_base hbase] at he
  cases he
  exact hfields

/-- No definition within the type is without fields. -/
def Filled (t : Ty ν) : Prop :=
  t.Everywhere fun u => ∀ d, u.definition? = some d → d.fields ≠ []

/-- What is asked of a single type, with a bound on its sizes. The lower bound on
sizes, and the agreement of a definition with the kind, are part of the type. -/
structure Sound (pool : Pool) (top : UInt8) (t : Ty Ident) : Prop where
  rows_le : t.shape.rows ≤ top
  columns_le : t.shape.columns ≤ top
  defined_iff : t.definition?.isSome = t.kind.isAggregate
  named : ∀ d, t.definition? = some d → pool.Names d.name

theorem sound_of_plain {pool : Pool} {top : UInt8} {t : Ty Ident} {k : Kind}
    (hbase : t.base = .plain k) (hk : k.isAggregate = false) (hrows : t.shape.rows ≤ top)
    (hcolumns : t.shape.columns ≤ top) : t.Sound pool top where
  rows_le := hrows
  columns_le := hcolumns
  defined_iff := by
    rw [definition?_of_plain hbase, kind, hbase, Base.kind, hk]
    rfl
  named := by
    intro d hd
    rw [definition?_of_plain hbase] at hd
    cases hd

theorem sound_of_defined {pool : Pool} {top : UInt8} {t : Ty Ident} {d : Definition Ident}
    (hbase : t.base = .defined d) (hname : pool.Names d.name) (hrows : t.shape.rows ≤ top)
    (hcolumns : t.shape.columns ≤ top) : t.Sound pool top where
  rows_le := hrows
  columns_le := hcolumns
  defined_iff := by
    rw [definition?_of_base hbase, kind, hbase, Base.kind, Definition.kind]
    cases d.form <;> rfl
  named := by
    intro e he
    rw [definition?_of_base hbase] at he
    cases he
    exact hname

/-- Sound at every depth. -/
def WellFormed (pool : Pool) (top : UInt8) (t : Ty Ident) : Prop :=
  t.Everywhere (Sound pool top)

theorem WellFormed.mono_pool {p q : Pool} (h : p.Grows q) {top : UInt8} {t : Ty Ident}
    (ht : t.WellFormed p top) : t.WellFormed q top :=
  Everywhere.mono
    (fun _ hu => ⟨hu.rows_le, hu.columns_le, hu.defined_iff,
      fun d hd => (hu.named d hd).mono h⟩) ht

theorem WellFormed.mono_top {pool : Pool} {a b : UInt8} (h : a ≤ b) {t : Ty Ident}
    (ht : t.WellFormed pool a) : t.WellFormed pool b :=
  Everywhere.mono
    (fun _ hu => ⟨UInt8.le_trans hu.rows_le h, UInt8.le_trans hu.columns_le h, hu.defined_iff,
      hu.named⟩) ht

end Ty

end ShaderScope
