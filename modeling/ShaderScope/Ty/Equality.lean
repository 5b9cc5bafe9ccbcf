import ShaderScope.Ty.Basic

/-!
# Equality of types

Two types are the same if they agree in kind, shape and array length and, for
user-defined kinds, in the structure of their definitions: the form, the name and
the types of the fields in order. Field names, qualifiers and what a block says
about its instance and memory do not count.
-/

namespace ShaderScope

variable {ν : Type} [DecidableEq ν]

mutual

/-- Equality of types. -/
def Ty.same : Ty ν → Ty ν → Bool
  | ⟨base, shape, arrayLength, _⟩, u =>
      base.same u.base && shape == u.shape && arrayLength == u.arrayLength

/-- Equality of kinds, or of definitions. -/
def Base.same : Base ν → Base ν → Bool
  | .plain k, .plain l => k == l
  | .defined d, .defined e => d.same e
  | .plain _, .defined _ => false
  | .defined _, .plain _ => false

/-- Equality of definitions in form, name and field types. -/
def Definition.same : Definition ν → Definition ν → Bool
  | ⟨name, form, fields⟩, e =>
      name == e.name && form.isBlock == e.form.isBlock && sameFieldTypes fields e.fields

/-- As many fields, and equal types one by one. -/
def sameFieldTypes : List (Field ν) → List (Field ν) → Bool
  | [], [] => true
  | ⟨_, type⟩ :: fields, g :: gs => type.same g.type && sameFieldTypes fields gs
  | [], _ :: _ => false
  | _ :: _, [] => false

end

namespace Ty

/-- Equality up to array length. -/
def sameElement (t u : Ty ν) : Bool :=
  t.base.same u.base && t.shape == u.shape

theorem same_eq (t u : Ty ν) :
    t.same u = (t.sameElement u && t.arrayLength == u.arrayLength) := by
  obtain ⟨base, shape, arrayLength, qualifiers⟩ := t
  simp [Ty.same, sameElement]

theorem sameElement_eq_same_element (t u : Ty ν) :
    t.sameElement u = t.element.same u.element := by
  simp [same_eq, sameElement, element]

theorem sameFieldTypes_symm {fs gs : List (Field ν)}
    (hfields : ∀ f ∈ fs, ∀ u, f.type.same u = true → u.same f.type = true)
    (h : sameFieldTypes fs gs = true) : sameFieldTypes gs fs = true := by
  induction fs generalizing gs with
  | nil =>
      cases gs with
      | nil => exact h
      | cons g gs => simp [sameFieldTypes] at h
  | cons f fs ih =>
      cases gs with
      | nil => simp [sameFieldTypes] at h
      | cons g gs =>
          have hrest : sameFieldTypes fs gs = true → sameFieldTypes gs fs = true :=
            ih (fun f hf => hfields f (List.mem_cons_of_mem _ hf))
          have hfirst := hfields f List.mem_cons_self g.type
          obtain ⟨fname, ftype⟩ := f
          obtain ⟨gname, gtype⟩ := g
          simp only [sameFieldTypes, Bool.and_eq_true] at h ⊢
          exact ⟨hfirst h.1, hrest h.2⟩

/-- Equality of types does not depend on their order. -/
theorem same_symm {t u : Ty ν} (h : t.same u = true) : u.same t = true := by
  induction t using inductionOnFields generalizing u with
  | step t ih =>
      obtain ⟨base, shape, arrayLength, qualifiers⟩ := t
      obtain ⟨base', shape', arrayLength', qualifiers'⟩ := u
      simp only [Ty.same, Bool.and_eq_true, beq_iff_eq] at h ⊢
      refine ⟨⟨?_, h.1.2.symm⟩, h.2.symm⟩
      cases base with
      | plain k =>
          cases base' with
          | plain l =>
              simp only [Base.same, beq_iff_eq] at h ⊢
              exact h.1.1.symm
          | defined e => simp [Base.same] at h
      | defined d =>
          cases base' with
          | plain l => simp [Base.same] at h
          | defined e =>
              have hfields : sameFieldTypes d.fields e.fields = true →
                  sameFieldTypes e.fields d.fields = true :=
                sameFieldTypes_symm (fun f hf u hu => ih d rfl f hf hu)
              obtain ⟨name, form, fields⟩ := d
              obtain ⟨name', form', fields'⟩ := e
              simp only [Base.same, Definition.same, Bool.and_eq_true, beq_iff_eq] at h ⊢
              exact ⟨⟨h.1.1.1.1.symm, h.1.1.1.2.symm⟩, hfields h.1.1.2⟩

end Ty

end ShaderScope
