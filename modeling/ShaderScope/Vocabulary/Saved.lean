import ShaderScope.Vocabulary.Kind
import ShaderScope.Vocabulary.Precision
import ShaderScope.Vocabulary.Storage
import ShaderScope.Vocabulary.Layout

/-!
# The saved form of vocabulary values

Kinds and qualifiers are kept between runs as plain data: an enumeration as the
identifier of its constructor, a word as its number, a layout as a record.
Reading back a saved value gives that value, and anything else is refused.
-/

namespace ShaderScope

/-- Plain data, as a file holds it. Only whole numbers are numbers here; any
other number is `fraction`, which no value is saved as. -/
inductive Datum where
  | null
  | bool (value : Bool)
  | whole (value : Int)
  | fraction
  | text (value : String)
  | list (items : List Datum)
  | record (entries : List (String × Datum))

instance : Inhabited Datum := ⟨.null⟩

/-- A type whose values can be saved and read back. -/
class Saved (α : Type) where
  save : α → Datum
  load? : Datum → Option α
  load?_save : ∀ a, load? (save a) = some a

namespace Saved

/-- Values that are saved as one of finitely many distinct identifiers. -/
def loadIdentifier? {α : Type} (all : List α) (identifier : α → String) : Datum → Option α
  | .text s => all.find? (fun a => identifier a == s)
  | _ => none

/-- A word is saved as its number. -/
def loadWord? : Datum → Option UInt32
  | .whole n => if 0 ≤ n ∧ n < 0x100000000 then some (UInt32.ofNat n.toNat) else none
  | _ => none

theorem loadWord?_whole (word : UInt32) : loadWord? (.whole word.toNat) = some word := by
  have h : (word.toNat : Int) < 0x100000000 := by
    have := word.toNat_lt
    omega
  simp only [loadWord?, Int.natCast_nonneg, h, and_self, if_true, Int.toNat_natCast,
    UInt32.ofNat_toNat]

instance : Saved UInt32 where
  save word := .whole word.toNat
  load? := loadWord?
  load?_save := loadWord?_whole

/-- A value that may be left out, or null. -/
def loadOptional? {α : Type} [Saved α] : Option Datum → Option (Option α)
  | none => some none
  | some .null => some none
  | some d => (load? d).map some

end Saved

namespace Kind

/-- The identifier under which a kind is saved. -/
def identifier : Kind → String
  | void => "Void" | float => "Float" | int => "Int" | uint => "UInt" | bool => "Bool"
  | sampler2D => "Sampler2D" | sampler3D => "Sampler3D" | samplerCube => "SamplerCube"
  | sampler2DArray => "Sampler2DArray" | samplerExternalOES => "SamplerExternalOES"
  | isampler2D => "ISampler2D" | isampler3D => "ISampler3D"
  | isamplerCube => "ISamplerCube" | isampler2DArray => "ISampler2DArray"
  | usampler2D => "USampler2D" | usampler3D => "USampler3D"
  | usamplerCube => "USamplerCube" | usampler2DArray => "USampler2DArray"
  | sampler2DShadow => "Sampler2DShadow" | samplerCubeShadow => "SamplerCubeShadow"
  | sampler2DArrayShadow => "Sampler2DArrayShadow"
  | struct => "Struct" | block => "InterfaceBlock"

instance : Saved Kind where
  save k := .text k.identifier
  load? := Saved.loadIdentifier? all identifier
  load?_save k := by cases k <;> rfl

end Kind

namespace Precision

/-- The identifier under which a precision is saved. -/
def identifier : Precision → String
  | undefined => "Undefined"
  | low => "Low"
  | medium => "Medium"
  | high => "High"

instance : Saved Precision where
  save p := .text p.identifier
  load? := Saved.loadIdentifier? all identifier
  load?_save p := by cases p <;> rfl

end Precision

namespace Storage

/-- The identifier under which a storage qualifier is saved. -/
def identifier : Storage → String
  | temporary => "Temporary"
  | global => "Global"
  | const => "Const"
  | vertexAttribute => "Attribute"
  | varyingIn => "VaryingIn"
  | varyingOut => "VaryingOut"
  | uniform => "Uniform"
  | vertexIn => "VertexIn"
  | fragmentOut => "FragmentOut"
  | smoothOut => "SmoothOut"
  | flatOut => "FlatOut"
  | centroidOut => "CentroidOut"
  | smoothIn => "SmoothIn"
  | flatIn => "FlatIn"
  | centroidIn => "CentroidIn"
  | paramIn => "In"
  | paramOut => "Out"
  | paramInOut => "InOut"
  | constReadOnly => "ConstReadOnly"
  | position => "Position"
  | pointSize => "PointSize"
  | fragCoord => "FragCoord"
  | frontFacing => "FrontFacing"
  | pointCoord => "PointCoord"
  | fragColor => "FragColor"
  | fragData => "FragData"
  | fragDepth => "FragDepth"
  | instanceId => "InstanceId"
  | vertexId => "VertexId"

instance : Saved Storage where
  save s := .text s.identifier
  load? := Saved.loadIdentifier? all identifier
  load?_save s := by cases s <;> rfl

end Storage

namespace MatrixPacking

/-- The identifier under which a packing is saved. -/
def identifier : MatrixPacking → String
  | unspecified => "Unspecified"
  | rowMajor => "RowMajor"
  | columnMajor => "ColumnMajor"

instance : Saved MatrixPacking where
  save p := .text p.identifier
  load? := Saved.loadIdentifier? all identifier
  load?_save p := by cases p <;> rfl

end MatrixPacking

namespace BlockStorage

/-- The identifier under which a memory layout is saved. -/
def identifier : BlockStorage → String
  | unspecified => "Unspecified"
  | shared => "Shared"
  | packed => "Packed"
  | std140 => "Std140"

instance : Saved BlockStorage where
  save s := .text s.identifier
  load? := Saved.loadIdentifier? all identifier
  load?_save s := by cases s <;> rfl

end BlockStorage

namespace Layout

/-- A layout is saved with all three entries. -/
def save (l : Layout) : Datum :=
  .record
    [("location", l.location.elim .null Saved.save),
     ("matrix_packing", Saved.save l.packing),
     ("block_storage", Saved.save l.storage)]

/-- Packing and storage have to be there, and entries under other labels are
passed over. -/
def load? : Datum → Option Layout
  | .record entries => do
      let location ← Saved.loadOptional? (entries.lookup "location")
      let packing ← (entries.lookup "matrix_packing").bind Saved.load?
      let storage ← (entries.lookup "block_storage").bind Saved.load?
      return { location, packing, storage }
  | _ => none

theorem load?_save (l : Layout) : load? l.save = some l := by
  have hp := Saved.load?_save l.packing
  have hs := Saved.load?_save l.storage
  obtain ⟨location, packing, storage⟩ := l
  cases location with
  | none => simp [save, load?, List.lookup_cons, Saved.loadOptional?, hp, hs]
  | some n =>
      have hn : Saved.loadOptional? (some (Saved.save n)) = some (some n) := by
        simp [Saved.loadOptional?, Saved.save, Saved.load?, Saved.loadWord?_whole]
      simp [save, load?, List.lookup_cons, hn, hp, hs]

instance : Saved Layout where
  save := save
  load? := load?
  load?_save := load?_save

end Layout

end ShaderScope
