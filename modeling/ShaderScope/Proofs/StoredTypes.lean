import ShaderScope.Memo.Equality
import ShaderScope.Memo.Meaning
import ShaderScope.Proofs.EqualTypes

/-!
# Equality of stored types

Types may share a definition, and a definition that is compared with itself is not
looked at. As equality is reflexive, this shortcut changes no answer: types over one
store are equal exactly if the plain types that they stand for are.
-/

namespace ShaderScope.Memo.Store

variable {ν : Type} {store : Store ν}

/-- The definition that the type refers to, if any, is stored. -/
def Knows (store : Store ν) (c : Cell) : Prop :=
  ∀ place, c.base = .stored place → place < store.entries.size

/-- The members of each definition refer to older places only. -/
def Ordered (store : Store ν) : Prop :=
  ∀ place e, store.entry? place = some e → ∀ m ∈ e.members, ∀ older,
    m.cell.base = .stored older → older < place

theorem ordered_empty : (empty : Store ν).Ordered := by
  intro place e he
  change (#[] : Array (Entry ν))[place]? = some e at he
  simp at he

/-- A definition whose members are known keeps the order. -/
theorem Ordered.add (h : store.Ordered) (name : ν) (form : Form ν) {members : List (Member ν)}
    (hmembers : ∀ m ∈ members, store.Knows m.cell) :
    (store.add name form members).2.Ordered := by
  intro place e he m hm older hbase
  change (store.entries.push _)[place]? = some e at he
  rw [Array.getElem?_push] at he
  split at he
  · next hplace =>
      cases he
      rw [hplace]
      exact hmembers m hm older hbase
  · exact h place e he m hm older hbase

theorem lt_size_of_stored {place : Nat} {e : Entry ν} (h : store.entry? place = some e) :
    place < store.entries.size := by
  obtain ⟨hplace, _⟩ := Array.getElem?_eq_some_iff.mp h
  exact hplace

theorem Ordered.knows (h : store.Ordered) {place : Nat} {e : Entry ν}
    (he : store.entry? place = some e) {m : Member ν} (hm : m ∈ e.members) :
    store.Knows m.cell :=
  fun older hbase => Nat.lt_trans (h place e he m hm older hbase) (lt_size_of_stored he)

/-- The field that a member stands for. -/
def field (store : Store ν) (m : Member ν) : Field ν :=
  ⟨m.name, store.toTy m.cell⟩

theorem fieldsBelow_eq_map {place : Nat} {members : List (Member ν)}
    (h : ∀ m ∈ members, ∀ older, m.cell.base = .stored older → older < place) :
    store.fieldsBelow place members = members.map store.field := by
  induction members with
  | nil => rw [fieldsBelow, List.map_nil]
  | cons m members ih =>
      have hfirst := h m List.mem_cons_self
      rw [fieldsBelow, List.map_cons, ih fun n hn => h n (List.mem_cons_of_mem _ hn), field, toTy]
      cases hbase : m.cell.base with
      | plain kind => rfl
      | stored older => simp only [if_pos (hfirst older hbase)]

/-- What stands at a place of an ordered store. -/
theorem Ordered.definitionAt (h : store.Ordered) {place : Nat} {e : Entry ν}
    (he : store.entry? place = some e) :
    store.definitionAt place = some ⟨e.name, e.form, e.members.map store.field⟩ := by
  rw [Store.definitionAt, he]
  simp only [fieldsBelow_eq_map (h place e he)]

theorem Ordered.exists_definitionAt (h : store.Ordered) {place : Nat}
    (hplace : place < store.entries.size) : ∃ d, store.definitionAt place = some d :=
  ⟨_, h.definitionAt (Array.getElem?_eq_getElem hplace)⟩

variable [DecidableEq ν]

/-- Types are compared as the plain ones, given that their definitions are. -/
theorem Ordered.sameElement_of_sameAt (h : store.Ordered) {c d : Cell} (hc : store.Knows c)
    (hd : store.Knows d)
    (hplaces : ∀ p q x y, c.base = .stored p → d.base = .stored q →
      store.definitionAt p = some x → store.definitionAt q = some y →
      store.sameAt p q = x.same y) :
    store.sameElement c d = (store.toTy c).sameElement (store.toTy d) := by
  unfold sameElement Ty.sameElement toTy
  rw [Bool.and_comm]
  congr 1
  cases hcbase : c.base with
  | plain k =>
      cases hdbase : d.base with
      | plain l => rw [Base.same]
      | stored q =>
          obtain ⟨y, hy⟩ := h.exists_definitionAt (hd q hdbase)
          simp [hy, Base.same]
  | stored p =>
      obtain ⟨x, hx⟩ := h.exists_definitionAt (hc p hcbase)
      cases hdbase : d.base with
      | plain l => simp [hx, Base.same]
      | stored q =>
          obtain ⟨y, hy⟩ := h.exists_definitionAt (hd q hdbase)
          simp [hx, hy, Base.same, hplaces p q x y hcbase hdbase hx hy]

theorem same_eq (store : Store ν) (c d : Cell) :
    store.same c d = (store.sameElement c d && c.arrayLength == d.arrayLength) := by
  rw [same, Bool.and_comm]

/-- The first members are compared like any two types, as they refer to older places. -/
theorem sameMembers_cons {p : Nat} {m n : Member ν} {ms ns : List (Member ν)}
    (hm : ∀ older, m.cell.base = .stored older → older < p) :
    store.sameMembers p (m :: ms) (n :: ns) =
      (store.same m.cell n.cell && store.sameMembers p ms ns) := by
  rw [sameMembers, same_eq, sameElement]
  congr 1
  rw [Bool.and_assoc, Bool.and_assoc, Bool.and_comm (m.cell.arrayLength == n.cell.arrayLength)]
  congr 2
  cases hmbase : m.cell.base with
  | plain k => cases n.cell.base <;> rfl
  | stored a =>
      cases n.cell.base with
      | plain l => rfl
      | stored b => simp only [if_pos (hm a hmbase)]

theorem sameMembers_eq {p : Nat} {ms ns : List (Member ν)}
    (hms : ∀ m ∈ ms, ∀ older, m.cell.base = .stored older → older < p)
    (hsame : ∀ m ∈ ms, ∀ n ∈ ns,
      store.same m.cell n.cell = (store.toTy m.cell).same (store.toTy n.cell)) :
    store.sameMembers p ms ns = sameFieldTypes (ms.map store.field) (ns.map store.field) := by
  induction ms generalizing ns with
  | nil => cases ns <;> simp [sameMembers, sameFieldTypes]
  | cons m ms ih =>
      cases ns with
      | nil => simp [sameMembers, sameFieldTypes]
      | cons n ns =>
          have hrest := ih (fun k hk => hms k (List.mem_cons_of_mem _ hk)) fun k hk l hl =>
            hsame k (List.mem_cons_of_mem _ hk) l (List.mem_cons_of_mem _ hl)
          have hfirst := hsame m List.mem_cons_self n List.mem_cons_self
          rw [sameMembers_cons (hms m List.mem_cons_self), List.map_cons, List.map_cons, hrest,
            hfirst]
          simp only [field, sameFieldTypes]

/-- Definitions at two places are compared as the plain ones. If the places are one, the
answer is right because equality is reflexive. -/
theorem Ordered.sameAt_eq (h : store.Ordered) {p q : Nat} {x y : Definition ν}
    (hx : store.definitionAt p = some x) (hy : store.definitionAt q = some y) :
    store.sameAt p q = x.same y := by
  induction p using Nat.strongRecOn generalizing q x y with
  | ind p ih =>
      by_cases hpq : p = q
      · subst hpq
        rw [hx] at hy
        cases hy
        rw [sameAt_self, Definition.same_equivalence.refl x]
      · cases hd : store.entry? p with
        | none => simp [Store.definitionAt, hd] at hx
        | some d =>
            cases he : store.entry? q with
            | none => simp [Store.definitionAt, he] at hy
            | some e =>
                rw [h.definitionAt hd] at hx
                rw [h.definitionAt he] at hy
                cases hx
                cases hy
                have hmembers : store.sameMembers p d.members e.members =
                    sameFieldTypes (d.members.map store.field) (e.members.map store.field) := by
                  refine sameMembers_eq (h p d hd) fun m hm n hn => ?_
                  rw [same_eq, Ty.same_eq, h.sameElement_of_sameAt (h.knows hd hm) (h.knows he hn)]
                  · rfl
                  · intro a b x y ha _ hxa hyb
                    exact ih a (h p d hd m hm a ha) hxa hyb
                have hne : (p == q) = false := by simpa using hpq
                rw [sameAt, hd, he, hne, Bool.false_or]
                simp only [Definition.same, hmembers]

theorem Ordered.sameElement_eq (h : store.Ordered) {c d : Cell} (hc : store.Knows c)
    (hd : store.Knows d) :
    store.sameElement c d = (store.toTy c).sameElement (store.toTy d) :=
  h.sameElement_of_sameAt hc hd fun _ _ _ _ _ _ hx hy => h.sameAt_eq hx hy

theorem Ordered.same_eq (h : store.Ordered) {c d : Cell} (hc : store.Knows c)
    (hd : store.Knows d) : store.same c d = (store.toTy c).same (store.toTy d) := by
  rw [Store.same_eq, Ty.same_eq, h.sameElement_eq hc hd]
  rfl

end ShaderScope.Memo.Store

namespace ShaderScope

variable {ν : Type} [DecidableEq ν]

/-- Equality of types is a congruence. It is an equivalence, on types and on
definitions. It compares shape, array length and kind, and with a definition its form,
its name and the types of its fields, so that it overlooks qualifiers, the names of
fields and what a block says about its instance and memory. Equality up to array length
is equality of elements, and equal types answer every question about their structure
alike. Over one store it is the same equality, whether or not definitions are shared. -/
theorem equality_is_congruence (text : ν → String) :
    Equivalence (fun t u : Ty ν => t.same u = true) ∧
    Equivalence (fun d e : Definition ν => d.same e = true) ∧
    (∀ t u : Ty ν, t.same u = true ↔ t.Alike (fun a b => a.same b = true) u) ∧
    (∀ t u : Ty ν, t.sameElement u = t.element.same u.element) ∧
    (∀ t u : Ty ν, t.same u = true → t.AnswersAlike text u) ∧
    ∀ store : Memo.Store ν, store.Ordered →
      (∀ c d, store.Knows c → store.Knows d →
        store.same c d = (store.toTy c).same (store.toTy d) ∧
        store.sameElement c d = (store.toTy c).sameElement (store.toTy d)) ∧
      ∀ p q x y, store.definitionAt p = some x → store.definitionAt q = some y →
        store.sameAt p q = x.same y := by
  refine ⟨Ty.same_equivalence, Definition.same_equivalence, fun _ _ => Ty.same_iff,
    Ty.sameElement_eq_same_element, fun _ _ h => Ty.answersAlike_of_same text h, ?_⟩
  intro store h
  exact ⟨fun c d hc hd => ⟨h.same_eq hc hd, h.sameElement_eq hc hd⟩,
    fun p q x y hx hy => h.sameAt_eq hx hy⟩

/-- Two blocks that differ in all that equality overlooks answer alike, and so do types
over two definitions that stand at different places of one store. -/
theorem equal_blocks_beside_other_details :
    let near : Ty String := { Ty.ofDefinition ⟨"B", .block (some "b") .std140 .rowMajor,
      [⟨"x", (Ty.vector .float 3).withPrecision .high⟩]⟩ with
        qualifiers := { storage := .uniform, precision := .low, invariant := true } }
    let far : Ty String := Ty.ofDefinition ⟨"B", .block none .shared .unspecified,
      [⟨"y", (Ty.vector .float 3).withStorage .const⟩]⟩
    let float := Memo.Store.ofKind .float {} none {}
    let older := (Memo.Store.empty.add "S" .struct [⟨"x", float⟩]).2
    let store := (older.add "S" .struct [⟨"y", float.withPrecision .high⟩]).2
    let first : Memo.Cell := ⟨.stored 0, {}, none, {}, 1, none⟩
    let second : Memo.Cell := ⟨.stored 1, {}, none, { invariant := true }, 1, none⟩
    (near.same far = true ∧ near.AnswersAlike id far) ∧
    (store.Ordered ∧ store.Knows first ∧ store.Knows second) ∧ store.same first second = true ∧
      (store.toTy first).AnswersAlike id (store.toTy second) := by
  intro near far float older store first second
  have hfield : ((Ty.vector .float 3).withPrecision .high : Ty String).same
      ((Ty.vector .float 3).withStorage .const) = true :=
    Ty.same_iff.mpr ⟨.plain .float, rfl, rfl⟩
  have hsame : near.same far = true :=
    Ty.same_iff.mpr ⟨.defined ⟨rfl, rfl, .cons hfield .nil⟩, rfl, rfl⟩
  obtain ⟨_, _, _, _, hanswers, hstore⟩ := equality_is_congruence (id : String → String)
  refine ⟨⟨hsame, hanswers near far hsame⟩, ?_⟩
  have hplain : ∀ (s : Memo.Store String) (c : Memo.Cell), c.base = .plain .float → s.Knows c :=
    fun s c hbase place hplace => by rw [hbase] at hplace; cases hplace
  have hordered : store.Ordered :=
    (Memo.Store.ordered_empty.add "S" .struct (List.forall_mem_singleton.mpr (hplain _ _ rfl))).add
      "S" .struct (List.forall_mem_singleton.mpr (hplain _ _ rfl))
  have hfirst : store.Knows first := fun place hplace => by
    cases hplace
    decide
  have hsecond : store.Knows second := fun place hplace => by
    cases hplace
    decide
  have hstored : store.same first second = true := by
    simp [Memo.Store.same, Memo.Store.sameElement, Memo.Store.sameAt, Memo.Store.sameMembers,
      store, older, first, second, float, Memo.Store.add, Memo.Store.empty, Memo.Store.entry?,
      Memo.Store.ofKind, Memo.Cell.withPrecision]
  refine ⟨⟨hordered, hfirst, hsecond⟩, hstored, ?_⟩
  rw [((hstore store hordered).1 first second hfirst hsecond).1] at hstored
  exact hanswers _ _ hstored

end ShaderScope
