import ShaderScope.Symbol.Basic
import ShaderScope.Ty.Renaming

/-!
# Renaming declarations

Declarations, the changes to them, and symbols can be taken from one kind of names
to another, like the types in them. Every change to a declaration goes along.
-/

namespace ShaderScope

variable {ν μ : Type}

namespace Variable

/-- Rename everything within a variable. -/
def map (f : ν → μ) (v : Variable ν) : Variable μ where
  type := v.type.map f
  constant := v.constant
  extension? := v.extension?.map f

/-- All names within a variable. -/
def names (v : Variable ν) : List ν :=
  v.type.names ++ v.extension?.toList

theorem map_map_of_names {f : ν → μ} {g : μ → ν} {v : Variable ν}
    (h : ∀ n ∈ v.names, g (f n) = n) : (v.map f).map g = v := by
  simp only [names, List.forall_mem_append] at h
  simp only [map, Ty.map_map_of_names h.1, map_map_of_toList h.2]

end Variable

namespace Param

/-- Rename a parameter and everything within its type. -/
def map (f : ν → μ) (p : Param ν) : Param μ where
  name := p.name.map f
  type := p.type.map f

/-- The name of a parameter, if it has one, and those within its type. -/
def names (p : Param ν) : List ν :=
  p.name.toList ++ p.type.names

theorem map_map_of_names {f : ν → μ} {g : μ → ν} {p : Param ν}
    (h : ∀ n ∈ p.names, g (f n) = n) : (p.map f).map g = p := by
  simp only [names, List.forall_mem_append] at h
  simp only [map, map_map_of_toList h.1, Ty.map_map_of_names h.2]

end Param

/-- Renaming there and back leaves a list as it is, if it does so with each item. -/
theorem map_map_of_flatMap {α β : Type} {names : α → List ν} {f : ν → μ} {g : μ → ν}
    {there : α → β} {back : β → α}
    (hitem : ∀ x, (∀ n ∈ names x, g (f n) = n) → back (there x) = x) {xs : List α}
    (h : ∀ n ∈ xs.flatMap names, g (f n) = n) : (xs.map there).map back = xs := by
  induction xs with
  | nil => rfl
  | cons x xs ih =>
      rw [List.flatMap_cons, List.forall_mem_append] at h
      rw [List.map_cons, List.map_cons, hitem x h.1, ih h.2]

namespace Function

/-- Rename everything within a function. -/
def map (f : ν → μ) (fn : Function ν) : Function μ where
  result := fn.result.map f
  params := fn.params.map (Param.map f)
  defined := fn.defined
  extension? := fn.extension?.map f

/-- All names within a function. -/
def names (fn : Function ν) : List ν :=
  fn.result.names ++ (fn.params.flatMap Param.names ++ fn.extension?.toList)

theorem map_map_of_names {f : ν → μ} {g : μ → ν} {fn : Function ν}
    (h : ∀ n ∈ fn.names, g (f n) = n) : (fn.map f).map g = fn := by
  simp only [names, List.forall_mem_append] at h
  obtain ⟨hresult, hparams, hextension⟩ := h
  have hlist := map_map_of_flatMap (fun p hp => Param.map_map_of_names hp) hparams
  simp only [map, Ty.map_map_of_names hresult, hlist, map_map_of_toList hextension]

theorem paramTypes_map (f : ν → μ) (fn : Function ν) :
    (fn.map f).paramTypes = fn.paramTypes.map (Ty.map f) := by
  simp [paramTypes, map, Param.map, Function.comp_def]

end Function

namespace Declaration

/-- Rename everything within a declaration. -/
def map (f : ν → μ) : Declaration ν → Declaration μ
  | var v => .var (v.map f)
  | func fn => .func (fn.map f)
  | typeName d => .typeName (d.map f)

/-- All names within a declaration. -/
def names : Declaration ν → List ν
  | var v => v.names
  | func fn => fn.names
  | typeName d => d.names

theorem map_map_of_names {f : ν → μ} {g : μ → ν} {d : Declaration ν}
    (h : ∀ n ∈ d.names, g (f n) = n) : (d.map f).map g = d := by
  cases d with
  | var v => exact congrArg var (Variable.map_map_of_names h)
  | func fn => exact congrArg func (Function.map_map_of_names h)
  | typeName d => exact congrArg typeName (Definition.map_map_of_names h)

theorem isFunction_map (f : ν → μ) (d : Declaration ν) : (d.map f).isFunction = d.isFunction := by
  cases d <;> rfl

namespace Edit

/-- Rename what a change brings along. -/
def map (f : ν → μ) : Edit ν → Edit μ
  | resolveLength length => .resolveLength length
  | define => .define
  | pushParam p => .pushParam (p.map f)

/-- The names that a change brings along. -/
def names : Edit ν → List ν
  | pushParam p => p.names
  | _ => []

theorem map_map_of_names {f : ν → μ} {g : μ → ν} {e : Edit ν}
    (h : ∀ n ∈ e.names, g (f n) = n) : (e.map f).map g = e := by
  cases e with
  | resolveLength length => rfl
  | define => rfl
  | pushParam p => exact congrArg pushParam (Param.map_map_of_names h)

end Edit

theorem map_edit (f : ν → μ) (d : Declaration ν) (e : Edit ν) :
    (d.edit e).map f = (d.map f).edit (e.map f) := by
  cases d with
  | var v =>
      cases e with
      | resolveLength length =>
          simp only [edit, map, Variable.map, Edit.map, Ty.withArrayLength_map]
      | define => rfl
      | pushParam p => rfl
  | func fn =>
      cases e with
      | resolveLength length => rfl
      | define => rfl
      | pushParam p => simp [edit, map, Function.map, Function.pushParam, Edit.map]
  | typeName d => cases e <;> rfl

end Declaration

namespace Symbol

/-- Rename a symbol and everything within it. It stays the same symbol. -/
def map (f : ν → μ) (s : Symbol ν) : Symbol μ where
  id := s.id
  name := f s.name
  declaration := s.declaration.map f

theorem isFunction_map (f : ν → μ) (s : Symbol ν) : (s.map f).isFunction = s.isFunction :=
  s.declaration.isFunction_map f

theorem map_rebind (f : ν → μ) (s : Symbol ν) (id : SymbolId) :
    (s.rebind id).map f = (s.map f).rebind id :=
  rfl

theorem map_editAll (f : ν → μ) (s : Symbol ν) (es : List (Declaration.Edit ν)) :
    (s.editAll es).map f = (s.map f).editAll (es.map (Declaration.Edit.map f)) := by
  induction es generalizing s with
  | nil => rfl
  | cons e es ih =>
      have hedit : (s.edit e).map f = (s.map f).edit (e.map f) := by
        simp only [edit, map, Declaration.map_edit]
      rw [editAll, List.foldl_cons, ← editAll, ih, hedit]
      rfl

/-- The mangled names of the types in a symbol, after the signature of a function. -/
def spellings (text : ν → String) (s : Symbol ν) : List String :=
  match s.declaration with
  | .var v => [v.type.mangled text]
  | .func fn =>
      fn.signature text (text s.name) :: fn.result.mangled text ::
        fn.paramTypes.map (Ty.mangled text)
  | .typeName d => [d.mangled text]

/-- Spellings depend on the texts of names only. -/
theorem spellings_map (f : ν → μ) (text : μ → String) (s : Symbol ν) :
    (s.map f).spellings text = s.spellings (text ∘ f) := by
  obtain ⟨id, name, declaration⟩ := s
  cases declaration with
  | var v => simp only [spellings, map, Declaration.map, Variable.map, Ty.mangled_map]
  | func fn =>
      have hparams : (fn.map f).paramTypes.map (Ty.mangled text) =
          fn.paramTypes.map (Ty.mangled (text ∘ f)) := by
        rw [Function.paramTypes_map, List.map_map]
        exact List.map_congr_left fun t _ => t.mangled_map f text
      have hsignature : (fn.map f).signature text (text (f name)) =
          fn.signature (text ∘ f) (text (f name)) := by
        rw [Function.signature, Function.signature, Function.paramTypes_map, signature_map]
      simp only [spellings, map, Declaration.map, hparams, hsignature, Function.comp_apply]
      simp only [Function.map, Ty.mangled_map]
  | typeName d => simp only [spellings, map, Declaration.map, Definition.mangled_map]

end Symbol

end ShaderScope
