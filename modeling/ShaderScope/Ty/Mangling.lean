import ShaderScope.Ty.Basic

/-!
# Mangled names

A mangled name encodes what equality of types looks at: shape, kind or
definition, and array length. It is made of a shape mark, the tag of the kind or
the definition's own encoding, one character for each size, and the array length
in brackets.

A function's signature is its name followed by the mangled names of its
parameters in parentheses, which is what tells overloads apart.
-/

namespace ShaderScope

variable {ν : Type}

/-- A size as one character, counted from `'0'`. Sizes that no digit can show
run on through the characters after `'9'`, the last of which is U+00FF. -/
def sizeChar (n : UInt8) : Char :=
  Char.ofNat (min (48 + n.toNat) 255)

namespace Shape

/-- Tells matrices and vectors from single values. -/
def mark (s : Shape) : List Char :=
  if s.isMatrix then ['m'] else if s.isVector then ['v'] else []

/-- The row count, followed by the column count of a matrix. -/
def sizeChars (s : Shape) : List Char :=
  if s.isMatrix then [sizeChar s.rows, sizeChar s.columns] else [sizeChar s.rows]

end Shape

namespace Form

/-- Keeps structs and blocks of one name apart. -/
def mark : Form ν → List Char
  | struct => "struct-".toList
  | block .. => "iblock-".toList

end Form

namespace Kind

/-- The tag of a kind, nothing where it has none. -/
def tagChars (k : Kind) : List Char :=
  (k.tag?.getD "").toList

end Kind

/-- An array length in brackets, nothing for a type that is no array. -/
def lengthChars : Option UInt32 → List Char
  | none => []
  | some n => '[' :: (Nat.toDigits 10 n.toNat ++ [']'])

mutual

/-- The mangled characters of a type, in front of the given rest. -/
def Ty.mangleOnto (text : ν → String) : Ty ν → List Char → List Char
  | ⟨base, shape, arrayLength, _⟩, rest =>
      shape.mark ++
        base.mangleOnto text (shape.sizeChars ++ (lengthChars arrayLength ++ rest))

/-- The tag of a kind, or the characters of a definition, in front of the given rest. -/
def Base.mangleOnto (text : ν → String) : Base ν → List Char → List Char
  | .plain k, rest => k.tagChars ++ rest
  | .defined d, rest => d.mangleOnto text rest

/-- The mark of the form and the name, then every field's type behind a hyphen. -/
def Definition.mangleOnto (text : ν → String) : Definition ν → List Char → List Char
  | ⟨name, form, fields⟩, rest =>
      form.mark ++ ((text name).toList ++ mangleFieldsOnto text fields rest)

/-- The types of the fields, each behind a hyphen, in front of the given rest. -/
def mangleFieldsOnto (text : ν → String) : List (Field ν) → List Char → List Char
  | [], rest => rest
  | ⟨_, type⟩ :: fields, rest => '-' :: type.mangleOnto text (mangleFieldsOnto text fields rest)

end

namespace Ty

/-- The mangled characters of a type. -/
def mangledChars (text : ν → String) (t : Ty ν) : List Char :=
  t.mangleOnto text []

/-- The mangled name of a type. -/
def mangled (text : ν → String) (t : Ty ν) : String :=
  String.ofList (t.mangledChars text)

end Ty

namespace Definition

/-- The mangled characters of a definition. -/
def mangledChars (text : ν → String) (d : Definition ν) : List Char :=
  d.mangleOnto text []

/-- The mangled name of a definition. -/
def mangled (text : ν → String) (d : Definition ν) : String :=
  String.ofList (d.mangledChars text)

end Definition

mutual

theorem Ty.mangleOnto_eq (text : ν → String) : ∀ (t : Ty ν) (rest : List Char),
    t.mangleOnto text rest = t.mangledChars text ++ rest
  | ⟨base, shape, arrayLength, qualifiers⟩, rest => by
      have hbase := Base.mangleOnto_append text base
      simp only [Ty.mangleOnto, Ty.mangledChars]
      rw [hbase (shape.sizeChars ++ (lengthChars arrayLength ++ rest)),
        hbase (shape.sizeChars ++ (lengthChars arrayLength ++ []))]
      simp

theorem Base.mangleOnto_append (text : ν → String) : ∀ (b : Base ν) (rest : List Char),
    b.mangleOnto text rest = b.mangleOnto text [] ++ rest
  | .plain k, rest => by simp [Base.mangleOnto]
  | .defined d, rest => by
      simp only [Base.mangleOnto]
      exact Definition.mangleOnto_eq text d rest

theorem Definition.mangleOnto_eq (text : ν → String) : ∀ (d : Definition ν) (rest : List Char),
    d.mangleOnto text rest = d.mangledChars text ++ rest
  | ⟨name, form, fields⟩, rest => by
      have hfields := mangleFieldsOnto_append text fields
      simp only [Definition.mangleOnto, Definition.mangledChars]
      rw [hfields rest]
      simp

theorem mangleFieldsOnto_append (text : ν → String) :
    ∀ (fields : List (Field ν)) (rest : List Char),
      mangleFieldsOnto text fields rest = mangleFieldsOnto text fields [] ++ rest
  | [], rest => by simp [mangleFieldsOnto]
  | ⟨_, type⟩ :: fields, rest => by
      have htype := Ty.mangleOnto_eq text type
      have hfields := mangleFieldsOnto_append text fields
      simp only [mangleFieldsOnto]
      rw [htype, hfields rest, htype (mangleFieldsOnto text fields [])]
      simp

end

/-- The mangled names of several types, one after the other. -/
def mangledList (text : ν → String) (types : List (Ty ν)) : List Char :=
  types.flatMap (fun t => t.mangledChars text)

/-- The key that tells the overloads of a function apart. -/
def signature (text : ν → String) (name : String) (types : List (Ty ν)) : String :=
  String.ofList (name.toList ++ '(' :: (mangledList text types ++ [')']))

/-- What a mangled name starts and ends with: a type's own parts stand around
the encoding of its base. -/
theorem Ty.mangledChars_eq (text : ν → String) (t : Ty ν) :
    t.mangledChars text =
      t.shape.mark ++ (t.base.mangleOnto text [] ++
        (t.shape.sizeChars ++ lengthChars t.arrayLength)) := by
  obtain ⟨base, shape, arrayLength, qualifiers⟩ := t
  simp only [Ty.mangledChars, Ty.mangleOnto]
  rw [Base.mangleOnto_append text base]
  simp

/-- Resolving an array's length changes the bracketed part only. -/
theorem Ty.mangledChars_withArrayLength (text : ν → String) (t : Ty ν) (n : UInt32) :
    (t.withArrayLength n).mangledChars text =
      t.element.mangledChars text ++ lengthChars (some n) := by
  rw [Ty.mangledChars_eq, Ty.mangledChars_eq]
  simp [Ty.withArrayLength, Ty.element, lengthChars]

theorem Ty.mangled_withArrayLength (text : ν → String) (t : Ty ν) (n : UInt32) :
    (t.withArrayLength n).mangled text =
      t.element.mangled text ++ "[" ++ toString n.toNat ++ "]" := by
  have hlength : String.ofList (lengthChars (some n)) = "[" ++ (toString n.toNat ++ "]") := by
    rw [lengthChars, ← List.singleton_append, String.ofList_append, String.ofList_append]
    rfl
  rw [Ty.mangled, Ty.mangledChars_withArrayLength, String.ofList_append, ← Ty.mangled, hlength,
    String.append_assoc, String.append_assoc]

theorem Definition.mangled_eq (text : ν → String) (d : Definition ν) :
    d.mangled text = String.ofList d.form.mark ++ text d.name ++
      String.ofList (mangleFieldsOnto text d.fields []) := by
  obtain ⟨name, form, fields⟩ := d
  rw [Definition.mangled, Definition.mangledChars, Definition.mangleOnto, String.ofList_append,
    String.ofList_append, String.ofList_toList, String.append_assoc]

/-- The next field adds a hyphen and the mangled name of its type. -/
theorem append_mangleFieldsOnto_cons (text : ν → String) (start : String) (f : Field ν)
    (fields : List (Field ν)) :
    start ++ String.ofList (mangleFieldsOnto text (f :: fields) []) =
      start ++ "-" ++ f.type.mangled text ++ String.ofList (mangleFieldsOnto text fields []) := by
  obtain ⟨name, type⟩ := f
  rw [mangleFieldsOnto, Ty.mangleOnto_eq, Ty.mangled, ← List.singleton_append,
    String.ofList_append, String.ofList_append, String.append_assoc, String.append_assoc]

end ShaderScope
