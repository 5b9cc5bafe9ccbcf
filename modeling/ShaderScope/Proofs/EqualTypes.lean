import Mathlib.Data.List.Forall2
import Mathlib.Logic.Relation
import ShaderScope.Ty.Contents
import ShaderScope.Ty.Equality
import ShaderScope.Ty.Mangling
import ShaderScope.Ty.Size

/-!
# Equal types

Two types are equal if one step of the comparison holds and the types of their fields
are equal in order. Equality is therefore an equivalence, and every question that is
answered from the parts that one step compares, and from the answers for the fields,
has one answer for equal types. This is so for the mangled name, for the sizes, for the
nesting, and for what a type contains.
-/

namespace ShaderScope

variable {ν : Type}

/-- A relation between lists is weakened item by item, given where the items come from. -/
theorem forall₂_imp_of_mem {α β : Type} {R S : α → β → Prop} {xs : List α} {ys : List β}
    (hRS : ∀ x ∈ xs, ∀ y, R x y → S x y) (h : List.Forall₂ R xs ys) : List.Forall₂ S xs ys := by
  induction h with
  | nil => exact .nil
  | cons hxy _ ih =>
      exact .cons (hRS _ List.mem_cons_self _ hxy)
        (ih fun x hx => hRS x (List.mem_cons_of_mem _ hx))

/-! ## One step of the comparison -/

/-- Definitions of one form and one name, with fields that are related in order. -/
structure Definition.Alike (R : Ty ν → Ty ν → Prop) (d e : Definition ν) : Prop where
  name : d.name = e.name
  isBlock : d.form.isBlock = e.form.isBlock
  fields : List.Forall₂ (fun f g => R f.type g.type) d.fields e.fields

/-- One kind, or definitions that are alike. -/
inductive Base.Alike (R : Ty ν → Ty ν → Prop) : Base ν → Base ν → Prop where
  | plain (kind : Kind) : Alike R (.plain kind) (.plain kind)
  | defined {d e : Definition ν} (h : d.Alike R e) : Alike R (.defined d) (.defined e)

/-- Types of one shape and one array length, with bases that are alike. -/
structure Ty.Alike (R : Ty ν → Ty ν → Prop) (t u : Ty ν) : Prop where
  base : t.base.Alike R u.base
  shape : t.shape = u.shape
  arrayLength : t.arrayLength = u.arrayLength

theorem Definition.Alike.mono {R S : Ty ν → Ty ν → Prop} (hRS : ∀ t u, R t u → S t u)
    {d e : Definition ν} (h : d.Alike R e) : d.Alike S e :=
  ⟨h.name, h.isBlock, h.fields.imp fun f g hfg => hRS f.type g.type hfg⟩

/-! ## Answers of alike definitions -/

theorem mangleFieldsOnto_of_forall₂ {text : ν → String} {fs gs : List (Field ν)}
    (h : List.Forall₂ (fun f g => ∀ r, f.type.mangleOnto text r = g.type.mangleOnto text r) fs gs)
    (r : List Char) : mangleFieldsOnto text fs r = mangleFieldsOnto text gs r := by
  induction h with
  | nil => rfl
  | @cons f g fs gs hfg _ ih =>
      obtain ⟨fname, ftype⟩ := f
      obtain ⟨gname, gtype⟩ := g
      simp only at hfg
      rw [mangleFieldsOnto, mangleFieldsOnto, ih, hfg]

theorem sizeFrom_congr {fs gs : List (Field ν)}
    (h : List.Forall₂ (fun f g => f.type.size = g.type.size) fs gs) (total : UInt64) :
    sizeFrom total fs = sizeFrom total gs := by
  induction h generalizing total with
  | nil => rfl
  | @cons f g fs gs hfg _ ih =>
      obtain ⟨fname, ftype⟩ := f
      obtain ⟨gname, gtype⟩ := g
      simp only at hfg
      rw [sizeFrom, sizeFrom, hfg, ih]

theorem deepestField_congr {fs gs : List (Field ν)}
    (h : List.Forall₂ (fun f g => f.type.nesting = g.type.nesting) fs gs) (deepest : UInt32) :
    deepestField deepest fs = deepestField deepest gs := by
  induction h generalizing deepest with
  | nil => rfl
  | @cons f g fs gs hfg _ ih =>
      obtain ⟨fname, ftype⟩ := f
      obtain ⟨gname, gtype⟩ := g
      simp only at hfg
      rw [deepestField, deepestField, hfg, ih]

theorem fieldsContain_congr {test : Ty ν → Bool} {fs gs : List (Field ν)}
    (h : List.Forall₂ (fun f g => test f.type = test g.type ∧
      f.type.contains test = g.type.contains test) fs gs) :
    fieldsContain test fs = fieldsContain test gs := by
  induction h with
  | nil => rfl
  | @cons f g fs gs hfg _ ih =>
      obtain ⟨fname, ftype⟩ := f
      obtain ⟨gname, gtype⟩ := g
      simp only at hfg
      rw [fieldsContain, fieldsContain, hfg.1, hfg.2, ih]

namespace Definition

variable {d e : Definition ν}

theorem Alike.kind {R : Ty ν → Ty ν → Prop} (h : d.Alike R e) : d.kind = e.kind :=
  (Form.kind_eq_kind_iff d.form e.form).mpr h.isBlock

theorem Alike.mark {R : Ty ν → Ty ν → Prop} (h : d.Alike R e) : d.form.mark = e.form.mark := by
  have hform := h.isBlock
  generalize d.form = a, e.form = b at hform
  cases a with
  | struct =>
      cases b with
      | struct => rfl
      | block => simp [Form.isBlock] at hform
  | block =>
      cases b with
      | struct => simp [Form.isBlock] at hform
      | block => rfl

theorem Alike.mangleOnto {text : ν → String} (h : d.Alike (fun t u => ∀ r,
    t.mangleOnto text r = u.mangleOnto text r) e) (r : List Char) :
    d.mangleOnto text r = e.mangleOnto text r := by
  have hmark := h.mark
  obtain ⟨dname, dform, dfields⟩ := d
  obtain ⟨ename, eform, efields⟩ := e
  obtain ⟨rfl, _, hfields⟩ := h
  simp only at hmark hfields
  rw [Definition.mangleOnto, Definition.mangleOnto, hmark, mangleFieldsOnto_of_forall₂ hfields]

theorem Alike.size (h : d.Alike (fun t u => t.size = u.size) e) : d.size = e.size := by
  obtain ⟨dname, dform, dfields⟩ := d
  obtain ⟨ename, eform, efields⟩ := e
  rw [Definition.size, Definition.size]
  exact sizeFrom_congr h.fields 0

theorem Alike.nesting (h : d.Alike (fun t u => t.nesting = u.nesting) e) :
    d.nesting = e.nesting := by
  obtain ⟨dname, dform, dfields⟩ := d
  obtain ⟨ename, eform, efields⟩ := e
  rw [Definition.nesting, Definition.nesting, deepestField_congr h.fields 0]

theorem Alike.contains {test : Ty ν → Bool} (h : d.Alike (fun t u => test t = test u ∧
    t.contains test = u.contains test) e) : d.contains test = e.contains test := by
  obtain ⟨dname, dform, dfields⟩ := d
  obtain ⟨ename, eform, efields⟩ := e
  rw [Definition.contains, Definition.contains]
  exact fieldsContain_congr h.fields

end Definition

/-! ## Equality step by step -/

section

variable [DecidableEq ν]

theorem sameFieldTypes_iff {fs gs : List (Field ν)} :
    sameFieldTypes fs gs = true ↔
      List.Forall₂ (fun f g => f.type.same g.type = true) fs gs := by
  induction fs generalizing gs with
  | nil => cases gs <;> simp [sameFieldTypes]
  | cons f fs ih =>
      obtain ⟨name, type⟩ := f
      cases gs with
      | nil => simp [sameFieldTypes]
      | cons g gs => simp [sameFieldTypes, ih]

theorem Definition.same_iff {d e : Definition ν} :
    d.same e = true ↔ d.Alike (fun t u => t.same u = true) e := by
  obtain ⟨name, form, fields⟩ := d
  simp only [Definition.same, Bool.and_eq_true, beq_iff_eq, sameFieldTypes_iff]
  constructor
  · rintro ⟨⟨hname, hform⟩, hfields⟩
    exact ⟨hname, hform, hfields⟩
  · rintro ⟨hname, hform, hfields⟩
    exact ⟨⟨hname, hform⟩, hfields⟩

theorem Base.same_iff {b c : Base ν} :
    b.same c = true ↔ b.Alike (fun t u => t.same u = true) c := by
  constructor
  · intro h
    cases b with
    | plain k =>
        cases c with
        | plain l =>
            rw [Base.same, beq_iff_eq] at h
            rw [h]
            exact .plain l
        | defined e => simp [Base.same] at h
    | defined d =>
        cases c with
        | plain l => simp [Base.same] at h
        | defined e =>
            rw [Base.same] at h
            exact .defined (Definition.same_iff.mp h)
  · intro h
    cases h with
    | plain kind => rw [Base.same, beq_self_eq_true]
    | defined halike =>
        rw [Base.same]
        exact Definition.same_iff.mpr halike

theorem Ty.same_iff {t u : Ty ν} :
    t.same u = true ↔ t.Alike (fun t u => t.same u = true) u := by
  obtain ⟨base, shape, arrayLength, qualifiers⟩ := t
  simp only [Ty.same, Bool.and_eq_true, beq_iff_eq, Base.same_iff]
  constructor
  · rintro ⟨⟨hbase, hshape⟩, hlength⟩
    exact ⟨hbase, hshape, hlength⟩
  · rintro ⟨hbase, hshape, hlength⟩
    exact ⟨⟨hbase, hshape⟩, hlength⟩

namespace Ty

/-- To show something of equal types, show it of types whose fields have it. -/
theorem same_induction {R : Ty ν → Ty ν → Prop}
    (step : ∀ t u, t.Alike (fun a b => a.same b = true ∧ R a b) u → R t u) {t u : Ty ν}
    (h : t.same u = true) : R t u := by
  induction t using inductionOnFields generalizing u with
  | step t ih =>
      obtain ⟨hbase, hshape, hlength⟩ := same_iff.mp h
      refine step t u ⟨?_, hshape, hlength⟩
      unfold definition? at ih
      generalize t.base = b, u.base = c at hbase ih
      cases hbase with
      | plain kind => exact .plain kind
      | @defined d e halike =>
          refine .defined ⟨halike.name, halike.isBlock, forall₂_imp_of_mem ?_ halike.fields⟩
          intro f hf g hsame
          exact ⟨hsame, ih d rfl f hf hsame⟩

/-! ## Equality is an equivalence -/

theorem same_refl (t : Ty ν) : t.same t = true := by
  induction t using inductionOnFields with
  | step t ih =>
      refine same_iff.mpr ⟨?_, rfl, rfl⟩
      unfold definition? at ih
      generalize t.base = b at ih
      cases b with
      | plain kind => exact .plain kind
      | defined d => exact .defined ⟨rfl, rfl, List.forall₂_same.mpr (ih d rfl)⟩

theorem same_trans {t u v : Ty ν} (h : t.same u = true) (h' : u.same v = true) :
    t.same v = true := by
  refine same_induction (R := fun t u => ∀ v, u.same v = true → t.same v = true) ?_ h v h'
  intro t u halike v huv
  obtain ⟨hbase, hshape, hlength⟩ := same_iff.mp huv
  refine same_iff.mpr ⟨?_, halike.shape.trans hshape, halike.arrayLength.trans hlength⟩
  have hfirst := halike.base
  generalize t.base = b, u.base = c, v.base = c' at hfirst hbase
  cases hfirst with
  | plain kind => exact hbase
  | @defined d e hd =>
      cases hbase with
      | @defined _ e' he =>
          refine .defined ⟨hd.name.trans he.name, hd.isBlock.trans he.isBlock, ?_⟩
          have hfields := hd.fields
          have hfields' := he.fields
          generalize d.fields = fs, e.fields = gs, e'.fields = hs at hfields hfields'
          induction hfields generalizing hs with
          | nil =>
              cases hfields'
              exact .nil
          | cons hfg _ ih =>
              cases hfields' with
              | cons hgh hrest => exact .cons (hfg.2 _ hgh) (ih _ hrest)

theorem same_equivalence : Equivalence (fun t u : Ty ν => t.same u = true) where
  refl := same_refl
  symm := same_symm
  trans := same_trans

end Ty

/-- Definitions are equal exactly if the types that they define are. -/
theorem Definition.same_eq_same_ofDefinition (d e : Definition ν) :
    d.same e = (Ty.ofDefinition d).same (Ty.ofDefinition e) := by
  simp [Ty.ofDefinition, Ty.same, Base.same]

theorem Definition.same_equivalence : Equivalence (fun d e : Definition ν => d.same e = true) := by
  simp only [same_eq_same_ofDefinition]
  exact Ty.same_equivalence.comap Ty.ofDefinition

/-! ## Answers of equal types -/

namespace Ty

variable {t u : Ty ν}

theorem kind_of_same (h : t.same u = true) : t.kind = u.kind := by
  have hbase := (same_iff.mp h).base
  unfold kind
  generalize t.base = b, u.base = c at hbase
  cases hbase with
  | plain kind => rfl
  | defined halike => exact halike.kind

theorem isArray_of_same (h : t.same u = true) : t.isArray = u.isArray := by
  rw [isArray, isArray, (same_iff.mp h).arrayLength]

theorem isSampler_of_same (h : t.same u = true) : t.isSampler = u.isSampler := by
  rw [isSampler, isSampler, kind_of_same h]

/-- Equal types have one encoding, in front of any rest. -/
theorem mangleOnto_of_same (text : ν → String) (h : t.same u = true) :
    ∀ r, t.mangleOnto text r = u.mangleOnto text r := by
  refine same_induction (R := fun t u => ∀ r, t.mangleOnto text r = u.mangleOnto text r) ?_ h
  rintro ⟨base, shape, arrayLength, _⟩ ⟨base', shape', arrayLength', _⟩ ⟨hbase, rfl, rfl⟩ r
  rw [Ty.mangleOnto, Ty.mangleOnto]
  cases hbase with
  | plain kind => rfl
  | defined halike =>
      have hinner := (halike.mono fun _ _ hpair => hpair.2).mangleOnto
      rw [Base.mangleOnto, Base.mangleOnto, hinner]

theorem mangled_of_same (text : ν → String) (h : t.same u = true) :
    t.mangled text = u.mangled text := by
  rw [mangled, mangled, mangledChars, mangledChars, mangleOnto_of_same text h]

theorem size_of_same (h : t.same u = true) : t.size = u.size := by
  refine same_induction (R := fun t u => t.size = u.size) ?_ h
  rintro ⟨base, shape, arrayLength, _⟩ ⟨base', shape', arrayLength', _⟩ ⟨hbase, rfl, rfl⟩
  rw [Ty.size, Ty.size]
  cases hbase with
  | plain kind => rfl
  | defined halike =>
      have hsize := (halike.mono fun _ _ hpair => hpair.2).size
      rw [Base.size, Base.size, hsize]

theorem nesting_of_same (h : t.same u = true) : t.nesting = u.nesting := by
  refine same_induction (R := fun t u => t.nesting = u.nesting) ?_ h
  rintro ⟨base, shape, arrayLength, _⟩ ⟨base', shape', arrayLength', _⟩ ⟨hbase, _, _⟩
  rw [Ty.nesting, Ty.nesting]
  cases hbase with
  | plain kind => rfl
  | defined halike =>
      have hnesting := (halike.mono fun _ _ hpair => hpair.2).nesting
      rw [Base.nesting, Base.nesting, hnesting]

/-- Equal types contain alike, as far as a test does not tell equal types apart. -/
theorem contains_of_same {test : Ty ν → Bool}
    (htest : ∀ a b : Ty ν, a.same b = true → test a = test b) (h : t.same u = true) :
    t.contains test = u.contains test := by
  refine same_induction (R := fun t u => t.contains test = u.contains test) ?_ h
  rintro ⟨base, shape, arrayLength, _⟩ ⟨base', shape', arrayLength', _⟩ ⟨hbase, _, _⟩
  rw [Ty.contains, Ty.contains]
  cases hbase with
  | plain kind => rfl
  | defined halike =>
      have hcontains := (halike.mono fun a b hpair => ⟨htest a b hpair.1, hpair.2⟩).contains
      rw [Base.contains, Base.contains, hcontains]

theorem definitionSize_of_same (h : t.same u = true) : t.definitionSize = u.definitionSize := by
  have hbase := (same_iff.mp h).base
  unfold definitionSize definition?
  generalize t.base = b, u.base = c at hbase
  cases hbase with
  | plain kind => rfl
  | defined halike => exact (halike.mono fun _ _ => size_of_same).size

/-- Two types have one answer to every question about their structure. -/
structure AnswersAlike (text : ν → String) (t u : Ty ν) : Prop where
  mangled : t.mangled text = u.mangled text
  size : t.size = u.size
  definitionSize : t.definitionSize = u.definitionSize
  nesting : t.nesting = u.nesting
  kind : t.kind = u.kind
  rows : t.shape.rows = u.shape.rows
  columns : t.shape.columns = u.shape.columns
  arrayLength : t.arrayLength = u.arrayLength
  isMatrix : t.isMatrix = u.isMatrix
  isVector : t.isVector = u.isVector
  isScalar : t.isScalar = u.isScalar
  isArray : t.isArray = u.isArray
  isUnsizedArray : t.isUnsizedArray = u.isUnsizedArray
  isSampler : t.isSampler = u.isSampler
  containsArray : t.containsArray = u.containsArray
  containsSampler : t.containsSampler = u.containsSampler
  containsKind : ∀ kind, t.containsKind kind = u.containsKind kind

theorem answersAlike_of_same (text : ν → String) (h : t.same u = true) :
    t.AnswersAlike text u where
  mangled := mangled_of_same text h
  size := size_of_same h
  definitionSize := definitionSize_of_same h
  nesting := nesting_of_same h
  kind := kind_of_same h
  rows := by rw [(same_iff.mp h).shape]
  columns := by rw [(same_iff.mp h).shape]
  arrayLength := (same_iff.mp h).arrayLength
  isMatrix := by rw [isMatrix, isMatrix, (same_iff.mp h).shape]
  isVector := by rw [isVector, isVector, (same_iff.mp h).shape]
  isScalar := by rw [isScalar, isScalar, (same_iff.mp h).shape, kind_of_same h]
  isArray := isArray_of_same h
  isUnsizedArray := by rw [isUnsizedArray, isUnsizedArray, (same_iff.mp h).arrayLength]
  isSampler := isSampler_of_same h
  containsArray := contains_of_same (fun _ _ => isArray_of_same) h
  containsSampler := contains_of_same (fun _ _ => isSampler_of_same) h
  containsKind := by
    intro kind
    refine contains_of_same (fun a b hsame => ?_) h
    rw [kind_of_same hsame]

end Ty

end

end ShaderScope
