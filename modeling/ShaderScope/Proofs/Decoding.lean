import ShaderScope.Proofs.MangledParts
import ShaderScope.Proofs.WellFormed
import ShaderScope.Ty.Equality

/-!
# Reading mangled names back

A mangled name tells its type up to equality, provided that it can be seen where
the name of each definition ends. This module reads a type from the left end of a
text and leaves that proviso open. It is settled in two ways: by the hyphen in
front of a field, where every definition has fields, and by counting, where only
one of the two types is known to be readable.
-/

namespace ShaderScope

variable {ν : Type}

/-- The encoding of a base behind its opening: nothing for a kind, and the name
and the fields of a definition. -/
def Base.inside (text : ν → String) : Base ν → List Char → List Char
  | .plain _, rest => rest
  | .defined d, rest => (text d.name).toList ++ mangleFieldsOnto text d.fields rest

namespace Ty

/-- What stands behind the base of a type: the sizes and the array length. -/
def closing (t : Ty ν) (rest : List Char) : List Char :=
  t.shape.sizeChars ++ (lengthChars t.arrayLength ++ rest)

theorem head?_closing (t : Ty ν) (rest : List Char) :
    (t.closing rest).head? = some (sizeChar t.shape.rows) :=
  t.shape.head?_sizeChars _

variable {pool : Pool} {top : UInt8}

theorem Sound.head?_closing {t : Ty Ident} (h : t.Sound pool 9) (rest : List Char) :
    ∃ c ∈ sizeDigits, (t.closing rest).head? = some c :=
  ⟨_, sizeChar_mem_sizeDigits t.shape.rows_pos h.rows_le, t.head?_closing rest⟩

theorem Sound.plain {t : Ty Ident} (h : t.Sound pool top) {k : Kind} (hbase : t.base = .plain k) :
    k.isAggregate = false := by
  have hiff := h.defined_iff
  simp only [definition?, kind, hbase, Base.definition?, Base.kind] at hiff
  exact hiff.symm

theorem Sound.mangleOnto_eq {t : Ty Ident} (h : t.Sound pool top) (text : Ident → String)
    (rest : List Char) :
    t.mangleOnto text rest =
      t.shape.mark ++ (t.kind.opening ++ t.base.inside text (t.closing rest)) := by
  have hplain := fun k => h.plain (k := k)
  obtain ⟨base, shape, arrayLength, qualifiers⟩ := t
  cases base with
  | plain k =>
      simp only [mangleOnto, Base.mangleOnto, kind, Base.kind, Base.inside, closing,
        Kind.opening_of_not_isAggregate (hplain k rfl)]
  | defined d =>
      obtain ⟨name, form, fields⟩ := d
      simp only [mangleOnto, Base.mangleOnto, Definition.mangleOnto, kind, Base.kind,
        Definition.kind, Base.inside, closing, Kind.opening_kind]

theorem Sound.follows {t : Ty Ident} (h : t.Sound pool 9) (text : Ident → String)
    (rest : List Char) : t.kind.Follows (t.base.inside text (t.closing rest)) := by
  intro hkind
  cases hbase : t.base with
  | plain k => exact h.head?_closing rest
  | defined d =>
      have hiff := h.defined_iff
      rw [hkind, definition?, hbase] at hiff
      cases hiff

/-- The shape mark and the kind are read back first. -/
theorem opening_of_mangleOnto_eq {t u : Ty Ident} (ht : t.Sound pool 9) (hu : u.Sound pool 9)
    {text : Ident → String} {r s : List Char} (h : t.mangleOnto text r = u.mangleOnto text s) :
    t.shape.mark = u.shape.mark ∧ t.kind = u.kind ∧
      t.base.inside text (t.closing r) = u.base.inside text (u.closing s) := by
  rw [ht.mangleOnto_eq, hu.mangleOnto_eq] at h
  have hfollowsT := ht.follows text r
  have hfollowsU := hu.follows text s
  obtain ⟨hmark, hrest⟩ := Shape.mark_append_inj
    (Kind.head?_opening_append_ne _ hfollowsT) (Kind.head?_opening_append_ne _ hfollowsU) h
  exact ⟨hmark, Kind.opening_append_inj hfollowsT hfollowsU hrest⟩

/-- The sizes and the array length are read back last. -/
theorem closing_inj {t u : Ty Ident} (ht : t.Sound pool 9) (hu : u.Sound pool 9)
    (hmark : t.shape.mark = u.shape.mark) {r s : List Char} (hr : r.head? ≠ some '[')
    (hs : s.head? ≠ some '[') (h : t.closing r = u.closing s) :
    t.shape = u.shape ∧ t.arrayLength = u.arrayLength ∧ r = s := by
  obtain ⟨hshape, hrest⟩ := Shape.sizeChars_append_inj ht.rows_le hu.rows_le ht.columns_le
    hu.columns_le hmark h
  exact ⟨hshape, lengthChars_append_inj hr hs hrest⟩

/-- Types of one kind are either both plain, or both defined, in one form. -/
theorem base_of_kind_eq {t u : Ty Ident} (ht : t.Sound pool top) (hu : u.Sound pool top)
    (h : t.kind = u.kind) :
    (∃ k, t.base = .plain k ∧ u.base = .plain k) ∨
      ∃ d e, t.base = .defined d ∧ u.base = .defined e ∧ d.form.isBlock = e.form.isBlock := by
  have hiffT := ht.defined_iff
  have hiffU := hu.defined_iff
  rw [h, ← hiffU] at hiffT
  cases hbt : t.base with
  | plain k =>
      cases hbu : u.base with
      | plain l =>
          left
          simp only [kind, hbt, hbu, Base.kind] at h
          exact ⟨k, rfl, by rw [h]⟩
      | defined e =>
          simp only [definition?, hbt, hbu, Base.definition?] at hiffT
          cases hiffT
  | defined d =>
      cases hbu : u.base with
      | plain l =>
          simp only [definition?, hbt, hbu, Base.definition?] at hiffT
          cases hiffT
      | defined e =>
          right
          simp only [kind, hbt, hbu, Base.kind, Definition.kind] at h
          exact ⟨d, e, rfl, rfl, (Form.kind_eq_kind_iff _ _).mp h⟩

end Ty

/-! ## Fields -/

/-- A field starts with a hyphen. -/
theorem head?_mangleFieldsOnto_cons (text : ν → String) (f : Field ν) (fields : List (Field ν))
    (rest : List Char) : (mangleFieldsOnto text (f :: fields) rest).head? = some '-' := by
  cases f
  simp only [mangleFieldsOnto, List.head?_cons]

theorem head?_mangleFieldsOnto (text : ν → String) (fields : List (Field ν)) (rest : List Char) :
    (mangleFieldsOnto text fields rest).head? =
      if fields = [] then rest.head? else some '-' := by
  cases fields with
  | nil => simp [mangleFieldsOnto]
  | cons f fields => simp [head?_mangleFieldsOnto_cons]

/-- Behind the name of a definition stands a hyphen or a size digit. -/
theorem Ty.Sound.head?_mangleFieldsOnto_ne {pool : Pool} {t : Ty Ident} (h : t.Sound pool 9)
    (text : Ident → String) (fields : List (Field Ident)) (rest : List Char) :
    (mangleFieldsOnto text fields (t.closing rest)).head? ≠ some '[' := by
  obtain ⟨c, hc, hclosing⟩ := h.head?_closing rest
  rw [head?_mangleFieldsOnto, hclosing]
  split
  · rintro ⟨⟩
    exact absurd hc (by decide)
  · decide

/-- How the ends of the names of definitions are found. `Pair` holds of the types
that are read from the same place of two equal texts, and `Tail` of what stands
behind them. -/
structure Delimited (pool : Pool) (Pair : Ty Ident → Ty Ident → Prop)
    (Tail : List Char → List Char → Prop) : Prop where
  sound : ∀ {t u}, Pair t u → t.Sound pool 9 ∧ u.Sound pool 9
  field : ∀ {t u d e f g}, Pair t u → t.base = .defined d → u.base = .defined e →
    f ∈ d.fields → g ∈ e.fields → Pair f.type g.type
  no_bracket : ∀ {r s}, Tail r s → r.head? ≠ some '[' ∧ s.head? ≠ some '['
  inner : ∀ {t u d e r s fs gs}, Pair t u → Tail r s → t.shape.mark = u.shape.mark →
    t.base = .defined d → u.base = .defined e → fs <:+ d.fields → gs <:+ e.fields →
    Tail (mangleFieldsOnto pool.text fs (t.closing r)) (mangleFieldsOnto pool.text gs (u.closing s))
  name : ∀ {t u d e r s}, Pair t u → Tail r s → t.shape.mark = u.shape.mark →
    t.base = .defined d → u.base = .defined e →
    t.base.inside pool.text (t.closing r) = u.base.inside pool.text (u.closing s) →
    pool.text d.name = pool.text e.name

namespace Delimited

variable {pool : Pool} {Pair : Ty Ident → Ty Ident → Prop} {Tail : List Char → List Char → Prop}

/-- The fields of two definitions are read back one by one. -/
theorem sameFieldTypes_of_mangleFieldsOnto_eq (rules : Delimited pool Pair Tail)
    {t u : Ty Ident} {d e : Definition Ident} {r s : List Char} (hpair : Pair t u)
    (htail : Tail r s) (hmark : t.shape.mark = u.shape.mark) (hd : t.base = .defined d)
    (he : u.base = .defined e)
    (hread : ∀ f ∈ d.fields, ∀ v x y, Pair f.type v → Tail x y →
      f.type.mangleOnto pool.text x = v.mangleOnto pool.text y → f.type.same v = true ∧ x = y)
    {fs gs : List (Field Ident)} (hfs : fs <:+ d.fields) (hgs : gs <:+ e.fields)
    (h : mangleFieldsOnto pool.text fs (t.closing r) =
      mangleFieldsOnto pool.text gs (u.closing s)) :
    sameFieldTypes fs gs = true ∧ t.closing r = u.closing s := by
  -- A closing starts with a size digit, so neither list of fields ends before the other.
  have hdigit : ∀ {v : Ty Ident} {x : List Char}, v.Sound pool 9 →
      (v.closing x).head? ≠ some '-' := by
    intro v x hv hx
    obtain ⟨c, hc, hclosing⟩ := hv.head?_closing x
    rw [hclosing] at hx
    cases hx
    exact absurd hc (by decide)
  obtain ⟨hsoundT, hsoundU⟩ := rules.sound hpair
  induction fs generalizing gs with
  | nil =>
      cases gs with
      | nil =>
          simp only [mangleFieldsOnto] at h
          exact ⟨by simp [sameFieldTypes], h⟩
      | cons g gs =>
          have hhead := congrArg List.head? h
          rw [head?_mangleFieldsOnto_cons, mangleFieldsOnto] at hhead
          exact absurd hhead (hdigit hsoundT)
  | cons f fs ih =>
      cases gs with
      | nil =>
          have hhead := congrArg List.head? h
          rw [head?_mangleFieldsOnto_cons, mangleFieldsOnto] at hhead
          exact absurd hhead.symm (hdigit hsoundU)
      | cons g gs =>
          obtain ⟨fname, ftype⟩ := f
          obtain ⟨gname, gtype⟩ := g
          simp only [mangleFieldsOnto, List.cons.injEq, true_and] at h
          have hf := hfs.subset List.mem_cons_self
          have hg := hgs.subset List.mem_cons_self
          have hfs' := (List.suffix_cons _ fs).trans hfs
          have hgs' := (List.suffix_cons _ gs).trans hgs
          obtain ⟨hsame, hrest⟩ := hread _ hf gtype _ _ (rules.field hpair hd he hf hg)
            (rules.inner hpair htail hmark hd he hfs' hgs') h
          obtain ⟨hsames, hclosing⟩ := ih hfs' hgs' hrest
          exact ⟨by simp [sameFieldTypes, hsame, hsames], hclosing⟩

/-- Wherever the names of definitions are delimited, a type is read back from the
left end of a text, up to equality, and so is the rest of the text. -/
theorem same_of_mangleOnto_eq (rules : Delimited pool Pair Tail) (t : Ty Ident) :
    ∀ u r s, Pair t u → Tail r s → t.mangleOnto pool.text r = u.mangleOnto pool.text s →
      t.same u = true ∧ r = s := by
  induction t using Ty.inductionOnFields with
  | step t ih =>
      intro u r s hpair htail h
      obtain ⟨hsoundT, hsoundU⟩ := rules.sound hpair
      obtain ⟨hr, hs⟩ := rules.no_bracket htail
      obtain ⟨hmark, hkind, hinside⟩ := Ty.opening_of_mangleOnto_eq hsoundT hsoundU h
      rcases Ty.base_of_kind_eq hsoundT hsoundU hkind with ⟨k, hk, hl⟩ | ⟨d, e, hd, he, hblock⟩
      · rw [hk, hl] at hinside
        obtain ⟨hshape, hlength, hrest⟩ := Ty.closing_inj hsoundT hsoundU hmark hr hs hinside
        refine ⟨?_, hrest⟩
        rw [Ty.same_eq, Ty.sameElement, hk, hl]
        simp [Base.same, hshape, hlength]
      · have hname := rules.name hpair htail hmark hd he hinside
        rw [hd, he] at hinside
        simp only [Base.inside, hname] at hinside
        have hread := ih d (by rw [Ty.definition?, hd]; rfl)
        obtain ⟨hfields, hclosing⟩ := rules.sameFieldTypes_of_mangleFieldsOnto_eq hpair htail
          hmark hd he hread List.suffix_rfl List.suffix_rfl (List.append_cancel_left hinside)
        obtain ⟨hshape, hlength, hrest⟩ := Ty.closing_inj hsoundT hsoundU hmark hr hs hclosing
        have hident : d.name = e.name := Pool.text_inj
          (hsoundT.named d (by rw [Ty.definition?, hd]; rfl)).issued
          (hsoundU.named e (by rw [Ty.definition?, he]; rfl)).issued hname
        refine ⟨?_, hrest⟩
        rw [Ty.same_eq, Ty.sameElement, hd, he]
        obtain ⟨dname, dform, dfields⟩ := d
        simp_all [Base.same, Definition.same]

end Delimited

end ShaderScope
