import Mathlib.Algebra.GroupWithZero.Nat
import ShaderScope.Ty.Size

/-!
# Exact sizes

The exact size of a type is counted over the natural numbers: a definition adds up its
fields, an array repeats its element, and any other type has its components. A size as
a word is the exact one, cut off at the ceiling. It makes no difference that the words
are cut off after every field and every array on the way, and none of their products and
sums wraps around.
-/

namespace ShaderScope

variable {ν : Type}

/-- The exact size of that many elements, or of a single one. -/
def exactRepeat (element : Nat) : Option UInt32 → Nat
  | none => element
  | some n => element * n.toNat

mutual

/-- The exact size of a type in components. -/
def Ty.exactSize : Ty ν → Nat
  | ⟨base, shape, arrayLength, _⟩ => exactRepeat (base.exactSize shape) arrayLength

/-- The exact size of a value, or of all fields of a definition. -/
def Base.exactSize : Base ν → Shape → Nat
  | .plain _, shape => shape.components
  | .defined d, _ => d.exactSize

/-- The sum of the exact sizes of the fields. -/
def Definition.exactSize : Definition ν → Nat
  | ⟨_, _, fields⟩ => exactSum fields

/-- The exact sizes of the fields, added up from the last one. -/
def exactSum : List (Field ν) → Nat
  | [] => 0
  | ⟨_, type⟩ :: fields => type.exactSize + exactSum fields

end

theorem exactSum_eq_sum (fields : List (Field ν)) :
    exactSum fields = (fields.map (fun f => f.type.exactSize)).sum := by
  induction fields with
  | nil => rfl
  | cons f fields ih =>
      obtain ⟨name, type⟩ := f
      rw [exactSum, ih, List.map_cons, List.sum_cons]

namespace Definition

theorem exactSize_eq (d : Definition ν) : d.exactSize = exactSum d.fields := by
  obtain ⟨name, form, fields⟩ := d
  rw [exactSize]

theorem size_eq (d : Definition ν) : d.size = sizeFrom 0 d.fields := by
  obtain ⟨name, form, fields⟩ := d
  rw [size]

end Definition

/-! ## Words that are cut off -/

/-- Cutting off the elements of an array does not show once the array is cut off. -/
theorem min_mul_min (a n c : Nat) : min (min a c * n) c = min (a * n) c := by
  rcases Nat.le_total a c with h | h
  · rw [Nat.min_eq_left h]
  · rw [Nat.min_eq_right h]
    cases n with
    | zero => rfl
    | succ n =>
        have hc : c ≤ c * (n + 1) := Nat.le_mul_of_pos_right c (Nat.succ_pos n)
        have ha : c * (n + 1) ≤ a * (n + 1) := Nat.mul_le_mul_right (n + 1) h
        rw [Nat.min_eq_right hc, Nat.min_eq_right (Nat.le_trans hc ha)]

theorem toNat_sizeCeiling : sizeCeiling.toNat = 2147483647 :=
  rfl

theorem toNat_addSize {total : UInt64} (h : total.toNat ≤ sizeCeiling.toNat) (size : UInt64) :
    (addSize total size).toNat = min (total.toNat + size.toNat) sizeCeiling.toNat := by
  have hroom : (sizeCeiling - total).toNat = sizeCeiling.toNat - total.toNat :=
    UInt64.toNat_sub_of_le _ _ h
  have hceiling := toNat_sizeCeiling
  unfold addSize
  split
  · next hfull =>
      rw [UInt64.lt_iff_toNat_lt, hroom] at hfull
      omega
  · next hfits =>
      rw [UInt64.lt_iff_toNat_lt, hroom] at hfits
      rw [UInt64.toNat_add, Nat.mod_eq_of_lt (by omega)]
      omega

/-- The product of a size and a length fits into a word. -/
theorem mul_length_lt {element : UInt64} (h : element.toNat ≤ sizeCeiling.toNat) (n : UInt32) :
    element.toNat * n.toNat < 2 ^ 64 := by
  calc
    element.toNat * n.toNat ≤ sizeCeiling.toNat * 2 ^ 32 :=
      Nat.mul_le_mul h (Nat.le_of_lt n.toNat_lt)
    _ < 2 ^ 64 := by decide

theorem toNat_repeatSize {element : UInt64} (h : element.toNat ≤ sizeCeiling.toNat)
    (arrayLength : Option UInt32) :
    (repeatSize element arrayLength).toNat =
      min (exactRepeat element.toNat arrayLength) sizeCeiling.toNat := by
  cases arrayLength with
  | none => exact (Nat.min_eq_left h).symm
  | some n =>
      have hproduct : (element * n.toUInt64).toNat = element.toNat * n.toNat := by
        rw [UInt64.toNat_mul, UInt32.toNat_toUInt64, Nat.mod_eq_of_lt (mul_length_lt h n)]
      simp only [repeatSize, exactRepeat]
      split
      · next hle =>
          rw [UInt64.le_iff_toNat_le, hproduct] at hle
          rw [hproduct, Nat.min_eq_left hle]
      · next hlt =>
          rw [UInt64.le_iff_toNat_le, hproduct] at hlt
          exact (Nat.min_eq_right (Nat.le_of_not_le hlt)).symm

namespace Shape

/-- Two sizes of one byte each have a product far below the ceiling. -/
theorem components_le (s : Shape) : s.components ≤ sizeCeiling.toNat := by
  have hrows := s.rows.toNat_lt
  have hcolumns := s.columns.toNat_lt
  calc
    s.components ≤ 2 ^ 8 * 2 ^ 8 := Nat.mul_le_mul (Nat.le_of_lt hrows) (Nat.le_of_lt hcolumns)
    _ ≤ sizeCeiling.toNat := by decide

theorem toNat_size (s : Shape) : s.size.toNat = s.components := by
  have hle := s.components_le
  have hceiling := toNat_sizeCeiling
  rw [size, UInt64.toNat_mul, UInt8.toNat_toUInt64, UInt8.toNat_toUInt64]
  exact Nat.mod_eq_of_lt (by unfold components at hle; omega)

end Shape

/-! ## Sizes of types -/

/-- Adding up fields from a total on, given what their sizes are. -/
theorem toNat_sizeFrom {fields : List (Field ν)}
    (hfields : ∀ f ∈ fields, f.type.size.toNat = min f.type.exactSize sizeCeiling.toNat)
    {total : UInt64} (h : total.toNat ≤ sizeCeiling.toNat) :
    (sizeFrom total fields).toNat =
      min (total.toNat + exactSum fields) sizeCeiling.toNat := by
  induction fields generalizing total with
  | nil => rw [sizeFrom, exactSum, Nat.add_zero, Nat.min_eq_left h]
  | cons f fields ih =>
      have hfirst := hfields f List.mem_cons_self
      have hadd := toNat_addSize h f.type.size
      have hle : (addSize total f.type.size).toNat ≤ sizeCeiling.toNat := by omega
      have hrest := ih (fun g hg => hfields g (List.mem_cons_of_mem _ hg)) hle
      obtain ⟨name, type⟩ := f
      simp only at hfirst hadd hrest
      rw [sizeFrom, exactSum, hrest, hadd, hfirst]
      omega

theorem Definition.toNat_size_of_fields {d : Definition ν} (hfields : ∀ f ∈ d.fields,
    f.type.size.toNat = min f.type.exactSize sizeCeiling.toNat) :
    d.size.toNat = min d.exactSize sizeCeiling.toNat := by
  have hzero : (0 : UInt64).toNat ≤ sizeCeiling.toNat := Nat.zero_le _
  have hsum := toNat_sizeFrom hfields hzero
  rw [d.size_eq, d.exactSize_eq, hsum, UInt64.toNat_zero, Nat.zero_add]

theorem Ty.toNat_size (t : Ty ν) : t.size.toNat = min t.exactSize sizeCeiling.toNat := by
  induction t using inductionOnFields with
  | step t ih =>
      obtain ⟨base, shape, arrayLength, qualifiers⟩ := t
      have hbase : (base.size shape).toNat = min (base.exactSize shape) sizeCeiling.toNat := by
        cases base with
        | plain k =>
            rw [Base.size, Base.exactSize, shape.toNat_size, Nat.min_eq_left shape.components_le]
        | defined d =>
            have hsum := Definition.toNat_size_of_fields (ih d rfl)
            rw [Base.size, Base.exactSize, hsum]
      have hrepeat := toNat_repeatSize (hbase ▸ Nat.min_le_right _ _) arrayLength
      rw [Ty.size, Ty.exactSize, hrepeat, hbase]
      cases arrayLength with
      | none => exact Nat.min_eq_left (Nat.min_le_right _ _)
      | some n => exact min_mul_min _ _ _

theorem Ty.size_le (t : Ty ν) : t.size.toNat ≤ sizeCeiling.toNat := by
  rw [t.toNat_size]
  exact Nat.min_le_right _ _

theorem sizeFrom_zero_le (fields : List (Field ν)) :
    (sizeFrom 0 fields).toNat ≤ sizeCeiling.toNat := by
  have hzero : (0 : UInt64).toNat ≤ sizeCeiling.toNat := Nat.zero_le _
  rw [toNat_sizeFrom (fun f _ => f.type.toNat_size) hzero]
  exact Nat.min_le_right _ _

/-- Sizes are exact up to the ceiling, for types and for definitions. On the way, the
total never exceeds the ceiling that it is taken from, and every product and every sum
fits into a word. -/
theorem size_eq_min_exactSize :
    (∀ t : Ty ν, t.size.toNat = min t.exactSize sizeCeiling.toNat ∧
      t.shape.rows.toNat * t.shape.columns.toNat < 2 ^ 64 ∧
      ∀ n, t.arrayLength = some n → t.element.size.toNat * n.toNat < 2 ^ 64) ∧
    ∀ d : Definition ν,
      d.size.toNat = min (d.fields.map (fun f => f.type.exactSize)).sum sizeCeiling.toNat ∧
      ∀ done f rest, d.fields = done ++ f :: rest →
        (sizeFrom 0 done).toNat ≤ sizeCeiling.toNat ∧
        (sizeFrom 0 done).toNat + f.type.size.toNat < 2 ^ 64 := by
  have hceiling := toNat_sizeCeiling
  constructor
  · intro t
    have hshape := t.shape.components_le
    refine ⟨t.toNat_size, ?_, fun n _ => mul_length_lt t.element.size_le n⟩
    unfold Shape.components at hshape
    omega
  · intro d
    refine ⟨?_, ?_⟩
    · rw [← exactSum_eq_sum, ← d.exactSize_eq]
      exact Definition.toNat_size_of_fields fun f _ => f.type.toNat_size
    · intro done f rest _
      have htotal := sizeFrom_zero_le done
      have hfield := f.type.size_le
      exact ⟨htotal, by omega⟩

/-- An array of no elements has no size, however big its elements are. -/
example :
    let words : Ty Unit := (Ty.vector .uint 4).withArrayLength 0xFFFFFFFF
    let big := Ty.ofDefinition ⟨(), .struct, [⟨(), words⟩, ⟨(), words⟩]⟩
    big.size = sizeCeiling ∧ (big.withArrayLength 2).size = sizeCeiling ∧
      (big.withArrayLength 0).size = 0 := by
  decide

end ShaderScope
