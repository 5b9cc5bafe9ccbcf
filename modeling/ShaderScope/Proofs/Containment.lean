import ShaderScope.Memo.Contents
import ShaderScope.Proofs.StoredTypes
import ShaderScope.Proofs.WellFormed
import ShaderScope.Ty.Contents

/-!
# Containment is reachability

A definition contains a type that passes a test exactly if its fields lead to one,
directly or through the definitions of their types. The array length of a field is a
part of its type, and the fields of the element lie behind it all the same. Stored
types answer as the plain types that they stand for.
-/

namespace ShaderScope

variable {ν : Type}

/-! ## One step of the search -/

theorem fieldsContain_eq_any (test : Ty ν → Bool) (fields : List (Field ν)) :
    fieldsContain test fields = fields.any fun f => test f.type || f.type.contains test := by
  induction fields with
  | nil => rw [fieldsContain, List.any_nil]
  | cons f fields ih =>
      obtain ⟨name, type⟩ := f
      rw [fieldsContain, List.any_cons, ih]

theorem Definition.contains_eq_any (test : Ty ν → Bool) (d : Definition ν) :
    d.contains test = d.fields.any fun f => test f.type || f.type.contains test := by
  obtain ⟨name, form, fields⟩ := d
  rw [Definition.contains, fieldsContain_eq_any]

/-- A type asks its definition, and contains nothing without one. -/
theorem Ty.contains_eq_any (test : Ty ν → Bool) (t : Ty ν) :
    t.contains test = t.definition?.any (fun d => d.contains test) := by
  obtain ⟨base, shape, arrayLength, qualifiers⟩ := t
  cases base <;> simp [Ty.contains, Base.contains, Ty.definition?, Base.definition?]

theorem Ty.contains_of_definition? {test : Ty ν → Bool} {t : Ty ν} {d : Definition ν}
    (hd : t.definition? = some d) : t.contains test = d.contains test := by
  rw [Ty.contains_eq_any, hd, Option.any_some]

theorem Ty.contains_of_no_definition {test : Ty ν → Bool} {t : Ty ν}
    (hd : t.definition? = none) : t.contains test = false := by
  rw [Ty.contains_eq_any, hd, Option.any_none]

theorem Ty.contains_element (test : Ty ν → Bool) (t : Ty ν) :
    t.element.contains test = t.contains test := by
  rw [Ty.contains_eq_any, Ty.contains_eq_any]
  rfl

/-! ## The whole search -/

namespace Definition

theorem contains_of_field {test : Ty ν → Bool} {d : Definition ν} {f : Field ν}
    (hf : f ∈ d.fields) (h : test f.type = true ∨ f.type.contains test = true) :
    d.contains test = true := by
  rw [contains_eq_any, List.any_eq_true]
  exact ⟨f, hf, Bool.or_eq_true_iff.mpr h⟩

theorem contains_of_reaches {test : Ty ν → Bool} {d : Definition ν} {u : Ty ν}
    (hu : d.Reaches u) (h : test u = true) : d.contains test = true := by
  induction hu with
  | field hf => exact contains_of_field hf (.inl h)
  | deeper hf hdef _ ih =>
      refine contains_of_field hf (.inr ?_)
      rw [Ty.contains_of_definition? hdef]
      exact ih h

/-- What a type contains is reached from its definition. The induction is on the type,
as a definition is only met as the definition of one. -/
theorem reaches_of_type_contains {test : Ty ν → Bool} (t : Ty ν) :
    ∀ d, t.definition? = some d → d.contains test = true → ∃ u, d.Reaches u ∧ test u = true := by
  induction t using Ty.inductionOnFields with
  | step t ih =>
      intro d hd h
      rw [contains_eq_any, List.any_eq_true] at h
      obtain ⟨f, hf, h⟩ := h
      rcases Bool.or_eq_true_iff.mp h with hself | hbelow
      · exact ⟨f.type, .field hf, hself⟩
      · cases hdef : f.type.definition? with
        | none =>
            rw [Ty.contains_of_no_definition hdef] at hbelow
            cases hbelow
        | some e =>
            rw [Ty.contains_of_definition? hdef] at hbelow
            obtain ⟨u, hu, hself⟩ := ih d hd f hf e hdef hbelow
            exact ⟨u, .deeper hf hdef hu, hself⟩

theorem contains_iff_reaches (test : Ty ν → Bool) (d : Definition ν) :
    d.contains test = true ↔ ∃ u, d.Reaches u ∧ test u = true :=
  ⟨reaches_of_type_contains (Ty.ofDefinition d) d rfl,
    fun ⟨_, hu, h⟩ => contains_of_reaches hu h⟩

theorem Reaches.trans {d e : Definition ν} {u v : Ty ν} (hu : d.Reaches u)
    (hdef : u.definition? = some e) (hv : e.Reaches v) : d.Reaches v := by
  induction hu with
  | field hf => exact .deeper hf hdef hv
  | deeper hf hfield _ ih => exact .deeper hf hfield (ih hdef)

theorem containsArray_iff (d : Definition ν) :
    d.containsArray = true ↔ ∃ u, d.Reaches u ∧ u.isArray = true :=
  d.contains_iff_reaches _

theorem containsKind_iff (d : Definition ν) (kind : Kind) :
    d.containsKind kind = true ↔ ∃ u, d.Reaches u ∧ u.kind = kind := by
  rw [containsKind, contains_iff_reaches]
  simp only [beq_iff_eq]

theorem containsSampler_iff (d : Definition ν) :
    d.containsSampler = true ↔ ∃ u, d.Reaches u ∧ u.isSampler = true :=
  d.contains_iff_reaches _

/-- Samplers are looked for as any of the kinds of samplers would be. -/
theorem containsSampler_iff_containsKind (d : Definition ν) :
    d.containsSampler = true ↔ ∃ kind, kind.isSampler = true ∧ d.containsKind kind = true := by
  simp only [containsSampler_iff, containsKind_iff]
  constructor
  · rintro ⟨u, hu, h⟩
    exact ⟨u.kind, h, u, hu, rfl⟩
  · rintro ⟨_, h, u, hu, rfl⟩
    exact ⟨u, hu, h⟩

end Definition

/-- A question about types that is a question about their definitions: a type without
one answers no, the array length of the type does not matter, and a definition answers
yes if a type that it reaches does. -/
structure AsksDefinition (ofTy : Ty ν → Bool) (ofDefinition : Definition ν → Bool) : Prop where
  passed_on : ∀ t, ofTy t = t.definition?.any ofDefinition
  withArrayLength : ∀ t n, ofTy (t.withArrayLength n) = ofTy t
  element : ∀ t, ofTy t.element = ofTy t
  upward : ∀ d u, d.Reaches u → ofTy u = true → ofDefinition d = true

theorem asksDefinition_contains (test : Ty ν → Bool) :
    AsksDefinition (Ty.contains test) (Definition.contains test) where
  passed_on := Ty.contains_eq_any test
  withArrayLength := Ty.contains_withArrayLength test
  element := Ty.contains_element test
  upward := by
    intro d u hu h
    cases hdef : u.definition? with
    | none =>
        rw [Ty.contains_of_no_definition hdef] at h
        cases h
    | some e =>
        rw [Ty.contains_of_definition? hdef, Definition.contains_iff_reaches] at h
        obtain ⟨v, hv, htest⟩ := h
        exact Definition.contains_of_reaches (hu.trans hdef hv) htest

namespace Memo.Store

variable {store : Store ν}

/-! ## Stored definitions -/

theorem definition?_toTy_of_plain (store : Store ν) {c : Cell} {kind : Kind}
    (hbase : c.base = .plain kind) : (store.toTy c).definition? = none := by
  simp [toTy, hbase, Ty.definition?, Base.definition?]

theorem definition?_toTy_of_stored {c : Cell} {place : Nat} {d : Definition ν}
    (hbase : c.base = .stored place) (hd : store.definitionAt place = some d) :
    (store.toTy c).definition? = some d := by
  simp [toTy, hbase, hd, Ty.definition?, Base.definition?]

theorem kind_toTy (store : Store ν) (c : Cell) : (store.toTy c).kind = store.kind c := by
  unfold Ty.kind toTy kind
  cases c.base with
  | plain kind => rfl
  | stored place =>
      simp only [Store.definitionAt]
      cases store.entry? place <;> rfl

/-- A test on stored types that is a test on the plain types they stand for. -/
def Tests (store : Store ν) (test : Cell → Bool) (plain : Ty ν → Bool) : Prop :=
  ∀ c, test c = plain (store.toTy c)

theorem tests_isArray (store : Store ν) :
    store.Tests (fun c => c.arrayLength.isSome) Ty.isArray :=
  fun _ => rfl

theorem tests_kind (store : Store ν) (kind : Kind) :
    store.Tests (fun c => store.kind c == kind) (fun u => u.kind == kind) := by
  intro c
  simp only [kind_toTy]

theorem tests_isSampler (store : Store ν) :
    store.Tests (fun c => (store.kind c).isSampler) Ty.isSampler := by
  intro c
  simp only [Ty.isSampler, kind_toTy]

/-- The answers for the first places are those of the definitions there. -/
def AnswersFor (store : Store ν) (plain : Ty ν → Bool) (count : Nat) (answers : Array Bool) :
    Prop :=
  answers.size = count ∧ ∀ place < count, ∀ d, store.definitionAt place = some d →
    answers.getD place false = d.contains plain

/-- A member whose definition is older answers by what is known for older places. -/
theorem AnswersFor.member (h : store.Ordered) {plain : Ty ν → Bool} {place : Nat}
    {answers : Array Bool} (ha : store.AnswersFor plain place answers) {e : Entry ν}
    (he : store.entry? place = some e) {m : Member ν} (hm : m ∈ e.members) :
    (match m.cell.base with
      | .plain _ => false
      | .stored older => answers.getD older false) = (store.toTy m.cell).contains plain := by
  cases hbase : m.cell.base with
  | plain kind =>
      rw [Ty.contains_of_no_definition (store.definition?_toTy_of_plain hbase)]
  | stored older =>
      obtain ⟨d, hd⟩ := h.exists_definitionAt (h.knows he hm older hbase)
      rw [Ty.contains_of_definition? (definition?_toTy_of_stored hbase hd)]
      exact ha.2 older (h place e he m hm older hbase) d hd

theorem AnswersFor.entry (h : store.Ordered) {test : Cell → Bool} {plain : Ty ν → Bool}
    (htest : store.Tests test plain) {place : Nat} {answers : Array Bool}
    (ha : store.AnswersFor plain place answers) {e : Entry ν}
    (he : store.entry? place = some e) {d : Definition ν}
    (hd : store.definitionAt place = some d) : e.contains test answers = d.contains plain := by
  rw [h.definitionAt he] at hd
  cases hd
  rw [Definition.contains_eq_any, List.any_map, Entry.contains, Bool.eq_iff_iff, List.any_eq_true,
    List.any_eq_true]
  refine exists_congr fun m => and_congr_right fun hm => Bool.eq_iff_iff.mp ?_
  exact congrArg₂ or (htest m.cell) (ha.member h he hm)

theorem Ordered.answersFor_containing (h : store.Ordered) {test : Cell → Bool}
    {plain : Ty ν → Bool} (htest : store.Tests test plain) :
    store.AnswersFor plain store.entries.size (store.containing test) := by
  rw [containing]
  refine Array.foldl_induction (fun k answers => store.AnswersFor plain k answers) ?_ ?_
  · exact ⟨rfl, fun _ hplace => absurd hplace (Nat.not_lt_zero _)⟩
  · rintro k answers ha
    refine ⟨by rw [Array.size_push, ha.1], fun place hplace d hd => ?_⟩
    have he : store.entry? k = some store.entries[k] := Array.getElem?_eq_getElem k.isLt
    rcases Nat.lt_succ_iff_lt_or_eq.mp hplace with hlt | rfl
    · rw [← ha.2 place hlt d hd, Array.getD_eq_getD_getElem?, Array.getD_eq_getD_getElem?,
        Array.getElem?_push, if_neg (ha.1.symm ▸ Nat.ne_of_lt hlt)]
    · rw [← ha.entry h htest he hd, Array.getD_eq_getD_getElem?, Array.getElem?_push,
        if_pos ha.1.symm]
      rfl

theorem Ordered.contains_eq (h : store.Ordered) {test : Cell → Bool} {plain : Ty ν → Bool}
    (htest : store.Tests test plain) {c : Cell} (hc : store.Knows c) :
    store.contains test c = (store.toTy c).contains plain := by
  cases hbase : c.base with
  | plain kind =>
      rw [Ty.contains_of_no_definition (store.definition?_toTy_of_plain hbase), Store.contains,
        hbase]
  | stored place =>
      obtain ⟨d, hd⟩ := h.exists_definitionAt (hc place hbase)
      rw [Ty.contains_of_definition? (definition?_toTy_of_stored hbase hd), Store.contains, hbase]
      exact (h.answersFor_containing htest).2 place (hc place hbase) d hd

end Memo.Store

/-- Containment is reachability. A definition contains an array, a kind, or a sampler
exactly if it reaches a type that is one, so that it contains a sampler exactly if it
contains some kind of sampler. About a type each question is the question about its
definition. Stored types answer as the plain types that they stand for. -/
theorem contains_iff_reached :
    (∀ d : Definition ν,
      (d.containsArray = true ↔ ∃ u, d.Reaches u ∧ u.isArray = true) ∧
      (∀ kind, d.containsKind kind = true ↔ ∃ u, d.Reaches u ∧ u.kind = kind) ∧
      (d.containsSampler = true ↔ ∃ u, d.Reaches u ∧ u.isSampler = true) ∧
      (d.containsSampler = true ↔
        ∃ kind, kind.isSampler = true ∧ d.containsKind kind = true)) ∧
    (AsksDefinition (ν := ν) Ty.containsArray Definition.containsArray ∧
      (∀ kind, AsksDefinition (ν := ν) (fun t => t.containsKind kind)
        (fun d => d.containsKind kind)) ∧
      AsksDefinition (ν := ν) Ty.containsSampler Definition.containsSampler) ∧
    ∀ store : Memo.Store ν, store.Ordered → ∀ c, store.Knows c →
      store.containsArray c = (store.toTy c).containsArray ∧
      (∀ kind, store.containsKind c kind = (store.toTy c).containsKind kind) ∧
      store.containsSampler c = (store.toTy c).containsSampler := by
  refine ⟨?_, ?_, ?_⟩
  · intro d
    exact ⟨d.containsArray_iff, d.containsKind_iff, d.containsSampler_iff,
      d.containsSampler_iff_containsKind⟩
  · exact ⟨asksDefinition_contains _, fun _ => asksDefinition_contains _,
      asksDefinition_contains _⟩
  · intro store h c hc
    exact ⟨h.contains_eq store.tests_isArray hc,
      fun kind => h.contains_eq (store.tests_kind kind) hc,
      h.contains_eq store.tests_isSampler hc⟩

/-- An array of structs hides nothing of its element: the sampler two definitions below
is contained, and reached from the plain definition. -/
theorem sampler_reached_through_array :
    let texture := Memo.Store.ofKind .sampler2D {} none {}
    let older := (Memo.Store.empty.add "Inner" .struct [⟨"texture", texture⟩]).2
    let inner : Memo.Cell := ⟨.stored 0, {}, some 2, {}, 1, none⟩
    let store := (older.add "Outer" .struct [⟨"inner", inner⟩]).2
    let outer : Memo.Cell := ⟨.stored 1, {}, none, {}, 2, none⟩
    (store.Ordered ∧ store.Knows outer) ∧
      (store.containsSampler outer = true ∧ (store.toTy outer).containsSampler = true) ∧
      (store.containsKind outer .float = false ∧
        (store.toTy outer).containsKind .float = false) ∧
      ∃ d, (store.toTy outer).definition? = some d ∧
        ∃ u, d.Reaches u ∧ u.isSampler = true := by
  intro texture older inner store outer
  obtain ⟨hreached, ⟨_, _, hsampler⟩, hstored⟩ := contains_iff_reached (ν := String)
  have hplain : Memo.Store.empty.Knows (ν := String) texture := fun place hplace => by
    cases hplace
  have hinner : older.Knows inner := fun place hplace => by
    cases hplace
    decide
  have hordered : store.Ordered :=
    (Memo.Store.ordered_empty.add "Inner" .struct (List.forall_mem_singleton.mpr hplain)).add
      "Outer" .struct (List.forall_mem_singleton.mpr hinner)
  have houter : store.Knows outer := fun place hplace => by
    cases hplace
    decide
  obtain ⟨_, hkind, hsame⟩ := hstored store hordered outer houter
  have hyes : store.containsSampler outer = true := by decide
  have hno : store.containsKind outer .float = false := by decide
  obtain ⟨d, hd⟩ := hordered.exists_definitionAt (houter 1 rfl)
  have hdef := Memo.Store.definition?_toTy_of_stored (c := outer) rfl hd
  have hcontains : d.containsSampler = true := by
    rw [← hyes, hsame, hsampler.passed_on, hdef, Option.any_some]
  exact ⟨⟨hordered, houter⟩, ⟨hyes, hsame ▸ hyes⟩, ⟨hno, hkind .float ▸ hno⟩,
    d, hdef, (hreached d).2.2.1.mp hcontains⟩

end ShaderScope
