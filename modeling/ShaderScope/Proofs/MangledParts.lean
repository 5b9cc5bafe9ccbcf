import Mathlib.Tactic.IntervalCases
import ShaderScope.Ty.Mangling

/-!
# The parts of a mangled name

A mangled name is a shape mark, an opening that tells the kind, size digits and
an array length. Each part is read back from the left: two texts that start with
a part of the same sort and are equal have equal parts and equal rests. What
makes this true is the character behind the part, which never continues it.
-/

namespace ShaderScope

/-- Two texts in one alphabet, each followed by a character outside of it, are
equal if the wholes are. -/
theorem append_inj_of_stops {p : Char → Bool} {xs ys r s : List Char}
    (hxs : ∀ c ∈ xs, p c = true) (hys : ∀ c ∈ ys, p c = true)
    (hr : ∀ c ∈ r.head?, p c = false) (hs : ∀ c ∈ s.head?, p c = false)
    (h : xs ++ r = ys ++ s) : xs = ys ∧ r = s := by
  have htake : ∀ {zs t : List Char}, (∀ c ∈ zs, p c = true) → (∀ c ∈ t.head?, p c = false) →
      (zs ++ t).takeWhile p = zs := by
    intro zs t hzs ht
    rw [List.takeWhile_append_of_pos hzs]
    cases t with
    | nil => simp
    | cons c t => simp [ht c rfl]
  have hxy : xs = ys := by
    rw [← htake hxs hr, h, htake hys hs]
  subst hxy
  exact ⟨rfl, List.append_cancel_left h⟩

/-- The characters that sizes from one to nine are written as. -/
def sizeDigits : List Char :=
  ['1', '2', '3', '4', '5', '6', '7', '8', '9']

/-- The character of a size stands that far behind `'0'`, unless that is beyond the
last one. -/
theorem toNat_sizeChar_eq_min (n : UInt8) : (sizeChar n).toNat = min (48 + n.toNat) 255 := by
  have hvalid : (min (48 + n.toNat) 255).isValidChar := by
    left
    omega
  have hchar : sizeChar n = Char.ofNatAux (min (48 + n.toNat) 255) hvalid := dif_pos hvalid
  rw [hchar]
  rfl

theorem toNat_sizeChar {n : UInt8} (h : n ≤ 9) : (sizeChar n).toNat = 48 + n.toNat := by
  have hle : n.toNat ≤ 9 := h
  rw [toNat_sizeChar_eq_min]
  omega

theorem sizeChar_inj {m n : UInt8} (hm : m ≤ 9) (hn : n ≤ 9) (h : sizeChar m = sizeChar n) :
    m = n := by
  have hnat := congrArg Char.toNat h
  rw [toNat_sizeChar hm, toNat_sizeChar hn] at hnat
  exact UInt8.toNat_inj.mp (by omega)

theorem sizeChar_mem_sizeDigits {n : UInt8} (hpos : 0 < n) (h : n ≤ 9) :
    sizeChar n ∈ sizeDigits := by
  have hlow : 0 < n.toNat := UInt8.lt_iff_toNat_lt.mp hpos
  have hhigh : n.toNat ≤ 9 := h
  have hchar : sizeChar n = Char.ofNat (48 + n.toNat) := by
    rw [← toNat_sizeChar h, Char.ofNat_toNat]
  rw [hchar]
  generalize n.toNat = k at hlow hhigh
  interval_cases k <;> decide

/-! ## Shapes -/

namespace Shape

/-- The first size digit of a shape, which stands right behind its base. -/
theorem head?_sizeChars (s : Shape) (rest : List Char) :
    (s.sizeChars ++ rest).head? = some (sizeChar s.rows) := by
  unfold sizeChars
  split <;> rfl

theorem isMatrix_iff_mark (s : Shape) : s.isMatrix = true ↔ s.mark = ['m'] := by
  unfold mark
  cases s.isMatrix <;> cases s.isVector <;> simp

theorem isMatrix_of_mark_eq {a b : Shape} (h : a.mark = b.mark) : a.isMatrix = b.isMatrix := by
  rw [Bool.eq_iff_iff, isMatrix_iff_mark, isMatrix_iff_mark, h]

/-- Only matrices have more than one column. -/
theorem columns_eq_one {s : Shape} (h : s.isMatrix = false) : s.columns = 1 := by
  have hpos : 0 < s.columns.toNat := UInt8.lt_iff_toNat_lt.mp s.columns_pos
  have hle : ¬ 1 < s.columns := by simpa [isMatrix] using h
  rw [UInt8.lt_iff_toNat_lt] at hle
  change ¬ 1 < s.columns.toNat at hle
  exact UInt8.toNat_inj.mp (show s.columns.toNat = 1 by omega)

theorem mark_cases (s : Shape) : s.mark = ['m'] ∨ s.mark = ['v'] ∨ s.mark = [] := by
  unfold mark
  cases s.isMatrix <;> cases s.isVector <;> simp

/-- A mark is read back, as nothing behind it is an `m` or a `v`. -/
theorem mark_append_inj {a b : Shape} {x y : List Char}
    (hx : x.head? ≠ some 'm' ∧ x.head? ≠ some 'v') (hy : y.head? ≠ some 'm' ∧ y.head? ≠ some 'v')
    (h : a.mark ++ x = b.mark ++ y) : a.mark = b.mark ∧ x = y := by
  rcases mark_cases a with ha | ha | ha <;> rcases mark_cases b with hb | hb | hb <;>
    rw [ha, hb] at h ⊢ <;> grind

/-- The sizes of shapes with one mark are read back. -/
theorem sizeChars_append_inj {a b : Shape} {x y : List Char}
    (harows : a.rows ≤ 9) (hbrows : b.rows ≤ 9) (hacols : a.columns ≤ 9) (hbcols : b.columns ≤ 9)
    (hmark : a.mark = b.mark) (h : a.sizeChars ++ x = b.sizeChars ++ y) : a = b ∧ x = y := by
  have hmatrix := isMatrix_of_mark_eq hmark
  have hext : a.rows = b.rows → a.columns = b.columns → a = b := by
    intro hrows hcolumns
    obtain ⟨rows, columns, _, _⟩ := a
    cases b
    cases hrows
    cases hcolumns
    rfl
  unfold sizeChars at h
  rw [← hmatrix] at h
  cases ha : a.isMatrix with
  | true =>
      simp only [ha, if_true, List.cons_append, List.nil_append, List.cons.injEq] at h
      obtain ⟨hr, hc, hxy⟩ := h
      exact ⟨hext (sizeChar_inj harows hbrows hr) (sizeChar_inj hacols hbcols hc), hxy⟩
  | false =>
      simp only [ha, Bool.false_eq_true, if_false, List.cons_append, List.nil_append,
        List.cons.injEq] at h
      obtain ⟨hr, hxy⟩ := h
      have hcolumns : a.columns = b.columns := by
        rw [columns_eq_one ha, columns_eq_one (hmatrix ▸ ha)]
      exact ⟨hext (sizeChar_inj harows hbrows hr) hcolumns, hxy⟩

end Shape

/-! ## Array lengths -/

theorem toDigits_append_bracket_inj {m n : Nat} {r s : List Char}
    (h : Nat.toDigits 10 m ++ ']' :: r = Nat.toDigits 10 n ++ ']' :: s) : m = n ∧ r = s := by
  have hdigit : ∀ {k : Nat}, ∀ c ∈ Nat.toDigits 10 k, c.isDigit = true :=
    fun c hc => Nat.isDigit_of_mem_toDigits (by decide) (by decide) hc
  have hstop : ∀ {t : List Char}, ∀ c ∈ (']' :: t).head?, c.isDigit = false := by
    intro t c hc
    cases hc
    decide
  obtain ⟨hdigits, hrest⟩ := append_inj_of_stops hdigit hdigit hstop hstop h
  refine ⟨?_, (List.cons.inj hrest).2⟩
  rw [← Nat.ofDigitChars_ten_toDigits (n := m), hdigits, Nat.ofDigitChars_ten_toDigits]

theorem bracket_append_inj {m n : UInt32} {r s : List Char}
    (h : lengthChars (some m) ++ r = lengthChars (some n) ++ s) : m = n ∧ r = s := by
  simp only [lengthChars, List.cons_append, List.append_assoc, List.nil_append,
    List.cons.injEq, true_and] at h
  obtain ⟨hlength, hrest⟩ := toDigits_append_bracket_inj h
  exact ⟨UInt32.toNat_inj.mp hlength, hrest⟩

/-- An array length is read back, as nothing behind a type is a bracket. -/
theorem lengthChars_append_inj {k l : Option UInt32} {r s : List Char}
    (hr : r.head? ≠ some '[') (hs : s.head? ≠ some '[')
    (h : lengthChars k ++ r = lengthChars l ++ s) : k = l ∧ r = s := by
  cases k with
  | none =>
      cases l with
      | none => exact ⟨rfl, h⟩
      | some n =>
          simp only [lengthChars, List.nil_append, List.cons_append] at h
          exact absurd (by rw [h]; rfl) hr
  | some m =>
      cases l with
      | none =>
          simp only [lengthChars, List.nil_append, List.cons_append] at h
          exact absurd (by rw [← h]; rfl) hs
      | some n =>
          obtain ⟨rfl, hrest⟩ := bracket_append_inj h
          exact ⟨rfl, hrest⟩

/-! ## Openings -/

namespace Kind

/-- What the encoding of a base starts with: the tag of its kind, or the mark of
the form of its definition. -/
def opening : Kind → List Char
  | struct => "struct-".toList
  | block => "iblock-".toList
  | k => k.tagChars

theorem opening_of_not_isAggregate {k : Kind} (h : k.isAggregate = false) :
    k.opening = k.tagChars := by
  cases k <;> first | rfl | cases h

theorem opening_kind {ν : Type} (f : Form ν) : f.kind.opening = f.mark := by
  cases f <;> rfl

/-- No opening with a size digit behind it starts another opening. -/
theorem opening_digit_not_isPrefixOf : ∀ k ∈ all, ∀ l ∈ all,
    sizeDigits.any (fun c => (k.opening ++ [c]).isPrefixOf l.opening) = false := by
  decide +kernel

theorem opening_injOn : ∀ k ∈ all, ∀ l ∈ all, k.opening = l.opening → k = l := by
  decide +kernel

theorem length_opening_le : ∀ k ∈ all, k.opening.length ≤ 7 := by
  decide +kernel

theorem length_opening_of_isAggregate :
    ∀ k ∈ all, k.isAggregate = true → k.opening.length = 7 := by
  decide +kernel

theorem not_isAggregate_of_opening_eq_nil :
    ∀ k ∈ all, k.opening = [] → k.isAggregate = false := by
  decide +kernel

theorem head?_opening_ne : ∀ k ∈ all, k.opening.head? ≠ some 'm' ∧ k.opening.head? ≠ some 'v' := by
  decide +kernel

/-- What may stand behind an opening: a size digit, or anything behind the mark
of a form. -/
def Follows (k : Kind) (x : List Char) : Prop :=
  k.isAggregate = false → ∃ c ∈ sizeDigits, x.head? = some c

theorem head?_opening_append_ne (k : Kind) {x : List Char} (hx : k.Follows x) :
    (k.opening ++ x).head? ≠ some 'm' ∧ (k.opening ++ x).head? ≠ some 'v' := by
  have hhead := head?_opening_ne k (mem_all k)
  cases hopen : k.opening with
  | nil =>
      obtain ⟨c, hc, hxc⟩ := hx (not_isAggregate_of_opening_eq_nil k (mem_all k) hopen)
      rw [List.nil_append, hxc]
      constructor
      · rintro ⟨⟩
        exact absurd hc (by decide)
      · rintro ⟨⟩
        exact absurd hc (by decide)
  | cons c cs =>
      rw [hopen] at hhead
      exact hhead

/-- No opening is continued by what stands behind it to a longer one. -/
theorem opening_not_extended {k l : Kind} {x w : List Char} {c : Char} (hx : k.Follows x)
    (hw : x.head? = some c) (h : l.opening = k.opening ++ c :: w) : False := by
  cases hk : k.isAggregate with
  | true =>
      have hlong := length_opening_of_isAggregate k (mem_all k) hk
      have hshort := length_opening_le l (mem_all l)
      rw [h, List.length_append, List.length_cons] at hshort
      omega
  | false =>
      obtain ⟨d, hd, hxd⟩ := hx hk
      rw [hw] at hxd
      cases hxd
      have hnot := List.any_eq_false.mp
        (opening_digit_not_isPrefixOf k (mem_all k) l (mem_all l)) c hd
      have hpre : (k.opening ++ [c]).isPrefixOf l.opening = true := by
        rw [List.isPrefixOf_iff_prefix, h]
        exact ⟨w, by simp⟩
      exact hnot hpre

/-- The kind is read back from the opening. -/
theorem opening_append_inj {k l : Kind} {x y : List Char} (hx : k.Follows x) (hy : l.Follows y)
    (h : k.opening ++ x = l.opening ++ y) : k = l ∧ x = y := by
  rcases List.append_eq_append_iff.mp h with ⟨w, hl, hxw⟩ | ⟨w, hk, hyw⟩
  · cases w with
    | nil =>
        rw [List.append_nil] at hl
        exact ⟨(opening_injOn l (mem_all l) k (mem_all k) hl).symm, hxw⟩
    | cons c w => exact (opening_not_extended hx (by rw [hxw]; rfl) hl).elim
  · cases w with
    | nil =>
        rw [List.append_nil] at hk
        exact ⟨opening_injOn k (mem_all k) l (mem_all l) hk, hyw.symm⟩
    | cons c w => exact (opening_not_extended hy (by rw [hyw]; rfl) hk).elim

end Kind

end ShaderScope
