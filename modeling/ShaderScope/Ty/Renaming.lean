import ShaderScope.Ty.Mangling
import ShaderScope.Ty.Specifier

/-!
# Renaming types

A type can be taken from one kind of names to another, for example from strings to
identifiers. Whatever does not look at names stays as it is, and an encoding looks
at nothing but the texts of the names.
-/

namespace ShaderScope

variable {ν μ : Type}

/-- Rename the instance of a block. -/
def Form.map (f : ν → μ) : Form ν → Form μ
  | struct => .struct
  | block instanceName storage packing => .block (instanceName.map f) storage packing

/-- The name of the instance of a block. -/
def Form.names : Form ν → List ν
  | struct => []
  | block instanceName _ _ => instanceName.toList

mutual

/-- Rename everything within a type. -/
def Ty.map (f : ν → μ) : Ty ν → Ty μ
  | ⟨base, shape, arrayLength, qualifiers⟩ => ⟨base.map f, shape, arrayLength, qualifiers⟩

/-- Rename everything within a base. -/
def Base.map (f : ν → μ) : Base ν → Base μ
  | .plain k => .plain k
  | .defined d => .defined (d.map f)

/-- Rename a definition and everything within its fields. -/
def Definition.map (f : ν → μ) : Definition ν → Definition μ
  | ⟨name, form, fields⟩ => ⟨f name, form.map f, mapFields f fields⟩

/-- Rename fields and everything within their types. -/
def mapFields (f : ν → μ) : List (Field ν) → List (Field μ)
  | [] => []
  | ⟨name, type⟩ :: fields => ⟨f name, type.map f⟩ :: mapFields f fields

end

mutual

/-- All names within a type. -/
def Ty.names : Ty ν → List ν
  | ⟨base, _, _, _⟩ => base.names

/-- All names within a base. -/
def Base.names : Base ν → List ν
  | .plain _ => []
  | .defined d => d.names

/-- The name of a definition, that of its instance, and those within its fields. -/
def Definition.names : Definition ν → List ν
  | ⟨name, form, fields⟩ => name :: (form.names ++ fieldNames fields)

/-- The names of fields, and those within their types. -/
def fieldNames : List (Field ν) → List ν
  | [] => []
  | ⟨name, type⟩ :: fields => name :: (type.names ++ fieldNames fields)

end

/-- Rename the definition of a specifier. -/
def Specifier.map (f : ν → μ) (s : Specifier ν) : Specifier μ :=
  { s with definition? := s.definition?.map (Definition.map f) }

/-- All names within a specifier. -/
def Specifier.names (s : Specifier ν) : List ν :=
  s.definition?.toList.flatMap Definition.names

/-! ## There and back -/

theorem map_map_of_toList {f : ν → μ} {g : μ → ν} {name : Option ν}
    (h : ∀ n ∈ name.toList, g (f n) = n) : (name.map f).map g = name := by
  cases name with
  | none => rfl
  | some n => exact congrArg some (h n List.mem_cons_self)

theorem Form.map_map_of_names {f : ν → μ} {g : μ → ν} {form : Form ν}
    (h : ∀ n ∈ form.names, g (f n) = n) : (form.map f).map g = form := by
  cases form with
  | struct => rfl
  | block instanceName storage packing =>
      simp only [map, map_map_of_toList h]

mutual

theorem Ty.map_map_of_names {f : ν → μ} {g : μ → ν} :
    ∀ {t : Ty ν}, (∀ n ∈ t.names, g (f n) = n) → (t.map f).map g = t
  | ⟨base, shape, arrayLength, qualifiers⟩, h => by
      have hbase := Base.map_map_of_names (b := base) h
      simp only [Ty.map, hbase]

theorem Base.map_map_of_names {f : ν → μ} {g : μ → ν} :
    ∀ {b : Base ν}, (∀ n ∈ b.names, g (f n) = n) → (b.map f).map g = b
  | .plain k, _ => by simp only [Base.map]
  | .defined d, h => by
      have hdefinition := Definition.map_map_of_names (d := d) (by simpa only [Base.names] using h)
      simp only [Base.map, hdefinition]

theorem Definition.map_map_of_names {f : ν → μ} {g : μ → ν} :
    ∀ {d : Definition ν}, (∀ n ∈ d.names, g (f n) = n) → (d.map f).map g = d
  | ⟨name, form, fields⟩, h => by
      simp only [Definition.names, List.forall_mem_cons, List.forall_mem_append] at h
      obtain ⟨hname, hform, hfields⟩ := h
      simp only [Definition.map, hname, Form.map_map_of_names hform, mapFields_mapFields hfields]

theorem mapFields_mapFields {f : ν → μ} {g : μ → ν} :
    ∀ {fields : List (Field ν)}, (∀ n ∈ fieldNames fields, g (f n) = n) →
      mapFields g (mapFields f fields) = fields
  | [], _ => by simp only [mapFields]
  | ⟨name, type⟩ :: fields, h => by
      simp only [fieldNames, List.forall_mem_cons, List.forall_mem_append] at h
      obtain ⟨hname, htype, hfields⟩ := h
      simp only [mapFields, hname, Ty.map_map_of_names htype, mapFields_mapFields hfields]

end

/-! ## What looks at names and what does not -/

theorem Form.mark_map (f : ν → μ) (form : Form ν) : (form.map f).mark = form.mark := by
  cases form <;> rfl

mutual

theorem Ty.mangleOnto_map (f : ν → μ) (text : μ → String) : ∀ (t : Ty ν) (rest : List Char),
    (t.map f).mangleOnto text rest = t.mangleOnto (text ∘ f) rest
  | ⟨base, shape, arrayLength, qualifiers⟩, rest => by
      simp only [Ty.map, Ty.mangleOnto, Base.mangleOnto_map f text base]

theorem Base.mangleOnto_map (f : ν → μ) (text : μ → String) : ∀ (b : Base ν) (rest : List Char),
    (b.map f).mangleOnto text rest = b.mangleOnto (text ∘ f) rest
  | .plain k, rest => by simp only [Base.map, Base.mangleOnto]
  | .defined d, rest => by
      simp only [Base.map, Base.mangleOnto, Definition.mangleOnto_map f text d]

theorem Definition.mangleOnto_map (f : ν → μ) (text : μ → String) :
    ∀ (d : Definition ν) (rest : List Char),
      (d.map f).mangleOnto text rest = d.mangleOnto (text ∘ f) rest
  | ⟨name, form, fields⟩, rest => by
      simp only [Definition.map, Definition.mangleOnto, Form.mark_map, Function.comp_apply,
        mangleFieldsOnto_map f text fields]

theorem mangleFieldsOnto_map (f : ν → μ) (text : μ → String) :
    ∀ (fields : List (Field ν)) (rest : List Char),
      mangleFieldsOnto text (mapFields f fields) rest = mangleFieldsOnto (text ∘ f) fields rest
  | [], rest => by simp only [mapFields, mangleFieldsOnto]
  | ⟨name, type⟩ :: fields, rest => by
      simp only [mapFields, mangleFieldsOnto, mangleFieldsOnto_map f text fields,
        Ty.mangleOnto_map f text type]

end

theorem Ty.mangled_map (f : ν → μ) (text : μ → String) (t : Ty ν) :
    (t.map f).mangled text = t.mangled (text ∘ f) := by
  simp only [mangled, mangledChars, mangleOnto_map]

theorem Definition.mangled_map (f : ν → μ) (text : μ → String) (d : Definition ν) :
    (d.map f).mangled text = d.mangled (text ∘ f) := by
  simp only [mangled, mangledChars, mangleOnto_map]

theorem signature_map (f : ν → μ) (text : μ → String) (name : String) (types : List (Ty ν)) :
    signature text name (types.map (Ty.map f)) = signature (text ∘ f) name types := by
  simp only [signature, mangledList, List.flatMap_map, Ty.mangledChars, Ty.mangleOnto_map]

theorem Ty.withArrayLength_map (f : ν → μ) (t : Ty ν) (length : UInt32) :
    (t.withArrayLength length).map f = (t.map f).withArrayLength length := by
  obtain ⟨base, shape, arrayLength, qualifiers⟩ := t
  simp only [withArrayLength, map]

end ShaderScope
