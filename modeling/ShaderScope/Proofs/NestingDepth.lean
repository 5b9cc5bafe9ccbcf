import Mathlib.Algebra.GroupWithZero.Nat
import Mathlib.Order.Bounds.Basic
import ShaderScope.Proofs.Containment
import ShaderScope.Proofs.Sessions

/-!
# Nesting is the height of definitions

The definitions on a path through the fields of a type form a chain, and the height of
the type is the length of the longest one. The nesting of a type is its height as a
word, or the greatest word if no word is big enough. It is stored with a type when the
type is made, and no later change of the type has to do with it.
-/

namespace ShaderScope

variable {ν : Type}

/-! ## Heights -/

/-- A field of the first definition has a type with the second one. -/
def Definition.Mentions (d e : Definition ν) : Prop :=
  ∃ f ∈ d.fields, f.type.definition? = some e

/-- Definitions that lead from that of a type down through fields. -/
structure Ty.Chain (t : Ty ν) (definitions : List (Definition ν)) : Prop where
  starts : definitions.head? = t.definition?
  descends : definitions.IsChain Definition.Mentions

/-- The number of definitions in the longest chain, zero without a definition. -/
def Ty.IsHeight (t : Ty ν) (height : Nat) : Prop :=
  IsGreatest {n | ∃ definitions, t.Chain definitions ∧ definitions.length = n} height

mutual

/-- The height of a type, counted through its fields. -/
def Ty.height : Ty ν → Nat
  | ⟨base, _, _, _⟩ => base.height

/-- Without a definition there is no height. -/
def Base.height : Base ν → Nat
  | .plain _ => 0
  | .defined d => d.height

/-- One more than the highest field. -/
def Definition.height : Definition ν → Nat
  | ⟨_, _, fields⟩ => highestField fields + 1

/-- The height of the highest field. -/
def highestField : List (Field ν) → Nat
  | [] => 0
  | ⟨_, type⟩ :: fields => max type.height (highestField fields)

end

theorem Definition.height_eq (d : Definition ν) : d.height = highestField d.fields + 1 := by
  obtain ⟨name, form, fields⟩ := d
  rw [Definition.height]

theorem Ty.height_of_definition? {t : Ty ν} {d : Definition ν} (hd : t.definition? = some d) :
    t.height = d.height := by
  obtain ⟨base, shape, arrayLength, qualifiers⟩ := t
  cases base with
  | plain k => cases hd
  | defined e =>
      cases hd
      rw [Ty.height, Base.height]

theorem Ty.height_of_no_definition {t : Ty ν} (hd : t.definition? = none) : t.height = 0 := by
  obtain ⟨base, shape, arrayLength, qualifiers⟩ := t
  cases base with
  | plain k => rw [Ty.height, Base.height]
  | defined e => cases hd

theorem height_le_highestField {fields : List (Field ν)} {f : Field ν} (hf : f ∈ fields) :
    f.type.height ≤ highestField fields := by
  induction fields with
  | nil => cases hf
  | cons g fields ih =>
      obtain ⟨name, type⟩ := g
      rw [highestField]
      rcases List.mem_cons.mp hf with rfl | hf
      · exact Nat.le_max_left _ _
      · exact Nat.le_trans (ih hf) (Nat.le_max_right _ _)

/-- Some field is as high as the highest one, if any field has a height at all. -/
theorem exists_highestField {fields : List (Field ν)} (h : highestField fields ≠ 0) :
    ∃ f ∈ fields, f.type.height = highestField fields := by
  induction fields with
  | nil => exact absurd rfl h
  | cons g fields ih =>
      obtain ⟨name, type⟩ := g
      rw [highestField] at h ⊢
      rcases Nat.le_total (highestField fields) type.height with hle | hle
      · exact ⟨⟨name, type⟩, List.mem_cons_self, (Nat.max_eq_left hle).symm⟩
      · rw [Nat.max_eq_right hle] at h ⊢
        obtain ⟨f, hf, hheight⟩ := ih h
        exact ⟨f, List.mem_cons_of_mem _ hf, hheight⟩

/-! ## The longest chain -/

theorem Ty.Chain.length_le {t : Ty ν} : ∀ {definitions : List (Definition ν)},
    t.Chain definitions → definitions.length ≤ t.height := by
  induction t using Ty.inductionOnFields with
  | step t ih =>
      intro definitions h
      cases definitions with
      | nil => exact Nat.zero_le _
      | cons d rest =>
          have hd : t.definition? = some d := h.starts.symm
          rw [Ty.height_of_definition? hd, d.height_eq, List.length_cons]
          cases rest with
          | nil => exact Nat.succ_le_succ (Nat.zero_le _)
          | cons e rest =>
              obtain ⟨⟨f, hf, he⟩, hrest⟩ := List.isChain_cons_cons.mp h.descends
              have hchain : f.type.Chain (e :: rest) := ⟨he.symm, hrest⟩
              exact Nat.succ_le_succ
                (Nat.le_trans (ih d hd f hf hchain) (height_le_highestField hf))

/-- A chain down the highest field, and the definition itself before it. -/
theorem Ty.exists_chain (t : Ty ν) : ∃ definitions, t.Chain definitions ∧
    definitions.length = t.height := by
  induction t using Ty.inductionOnFields with
  | step t ih =>
      cases hd : t.definition? with
      | none => exact ⟨[], ⟨hd.symm, .nil⟩, (Ty.height_of_no_definition hd).symm⟩
      | some d =>
          rw [Ty.height_of_definition? hd, d.height_eq]
          by_cases hzero : highestField d.fields = 0
          · exact ⟨[d], ⟨hd.symm, .singleton d⟩, by rw [hzero, List.length_singleton]⟩
          · obtain ⟨f, hf, hheight⟩ := exists_highestField hzero
            obtain ⟨definitions, hchain, hlength⟩ := ih d hd f hf
            rw [← hheight, ← hlength]
            cases definitions with
            | nil => exact absurd (hheight.symm.trans hlength.symm) hzero
            | cons e rest =>
                exact ⟨d :: e :: rest,
                  ⟨hd.symm, .cons_cons ⟨f, hf, hchain.starts.symm⟩ hchain.descends⟩, rfl⟩

theorem Ty.isHeight_height (t : Ty ν) : t.IsHeight t.height := by
  refine ⟨t.exists_chain, ?_⟩
  rintro n ⟨definitions, hchain, rfl⟩
  exact hchain.length_le

/-! ## Nesting -/

theorem Definition.nesting_eq (d : Definition ν) :
    d.nesting = nestOnce (deepestField 0 d.fields) := by
  obtain ⟨name, form, fields⟩ := d
  rw [Definition.nesting]

theorem toNat_nestOnce {n : UInt32} {height : Nat} (h : n.toNat = min height (2 ^ 32 - 1)) :
    (nestOnce n).toNat = min (height + 1) (2 ^ 32 - 1) := by
  unfold nestOnce
  split
  · next hfull =>
      rw [hfull] at h ⊢
      change 2 ^ 32 - 1 = _ at h
      change 2 ^ 32 - 1 = _
      omega
  · next hfits =>
      have hne : n.toNat ≠ 2 ^ 32 - 1 := fun heq => hfits (UInt32.toNat_inj.mp heq)
      rw [UInt32.toNat_add, UInt32.toNat_one]
      omega

theorem toNat_deepestField {fields : List (Field ν)}
    (hfields : ∀ f ∈ fields, f.type.nesting.toNat = min f.type.height (2 ^ 32 - 1))
    (deepest : UInt32) :
    (deepestField deepest fields).toNat =
      max deepest.toNat (min (highestField fields) (2 ^ 32 - 1)) := by
  induction fields generalizing deepest with
  | nil => rw [deepestField, highestField, Nat.zero_min, Nat.max_zero]
  | cons f fields ih =>
      have hfirst := hfields f List.mem_cons_self
      have hrest := ih fun g hg => hfields g (List.mem_cons_of_mem _ hg)
      obtain ⟨name, type⟩ := f
      simp only at hfirst
      rw [deepestField, highestField, hrest, UInt32.toNat_max, hfirst]
      omega

theorem Definition.toNat_nesting_of_fields {d : Definition ν}
    (hfields : ∀ f ∈ d.fields, f.type.nesting.toNat = min f.type.height (2 ^ 32 - 1)) :
    d.nesting.toNat = min d.height (2 ^ 32 - 1) := by
  have hdeepest := toNat_deepestField hfields 0
  rw [UInt32.toNat_zero, Nat.zero_max] at hdeepest
  rw [d.nesting_eq, d.height_eq]
  exact toNat_nestOnce hdeepest

theorem Ty.toNat_nesting (t : Ty ν) : t.nesting.toNat = min t.height (2 ^ 32 - 1) := by
  induction t using Ty.inductionOnFields with
  | step t ih =>
      obtain ⟨base, shape, arrayLength, qualifiers⟩ := t
      rw [Ty.nesting, Ty.height]
      cases base with
      | plain k => rw [Base.nesting, Base.height, Nat.zero_min, UInt32.toNat_zero]
      | defined d =>
          rw [Base.nesting, Base.height]
          exact Definition.toNat_nesting_of_fields (ih d rfl)

namespace Definition

theorem toNat_nesting (d : Definition ν) : d.nesting.toNat = min d.height (2 ^ 32 - 1) :=
  toNat_nesting_of_fields fun f _ => f.type.toNat_nesting

/-- A definition is nested more deeply than its fields, as long as a word can tell. -/
theorem nesting_lt {d : Definition ν} (h : d.nesting ≠ 0xFFFFFFFF) {f : Field ν}
    (hf : f ∈ d.fields) : f.type.nesting < d.nesting := by
  have hfull : d.nesting.toNat ≠ 2 ^ 32 - 1 := fun heq => h (UInt32.toNat_inj.mp heq)
  have hfield := f.type.toNat_nesting
  have hlt : f.type.height < d.height := by
    rw [d.height_eq]
    exact Nat.lt_succ_of_le (height_le_highestField hf)
  rw [d.toNat_nesting] at hfull
  rw [UInt32.lt_iff_toNat_lt, d.toNat_nesting]
  omega

/-- A definition of more than one level has a field that has a definition. -/
theorem two_le_nesting_iff (d : Definition ν) :
    2 ≤ d.nesting ↔ ∃ f ∈ d.fields, f.type.definition?.isSome := by
  rw [UInt32.le_iff_toNat_le, d.toNat_nesting, d.height_eq]
  change 2 ≤ _ ↔ _
  constructor
  · intro h
    have hne : highestField d.fields ≠ 0 := by omega
    obtain ⟨f, hf, hheight⟩ := exists_highestField hne
    refine ⟨f, hf, ?_⟩
    cases hdef : f.type.definition? with
    | none =>
        rw [Ty.height_of_no_definition hdef] at hheight
        omega
    | some e => rfl
  · rintro ⟨f, hf, hsome⟩
    obtain ⟨e, he⟩ := Option.isSome_iff_exists.mp hsome
    have hheight := height_le_highestField hf
    rw [Ty.height_of_definition? he, e.height_eq] at hheight
    omega

/-- Where something with a definition is reached, some field has one. -/
theorem exists_field_of_reaches {d : Definition ν} {u : Ty ν} (hu : d.Reaches u)
    (hsome : u.definition?.isSome) : ∃ f ∈ d.fields, f.type.definition?.isSome := by
  cases hu with
  | @field _ f hf => exact ⟨f, hf, hsome⟩
  | deeper hf hdef _ => exact ⟨_, hf, hdef ▸ rfl⟩

/-- Two levels are a struct or a block inside, if these are the kinds with a definition. -/
theorem two_le_nesting_iff_containsKind {d : Definition ν}
    (h : ∀ u, d.Reaches u → (u.definition?.isSome ↔ u.kind = .struct ∨ u.kind = .block)) :
    2 ≤ d.nesting ↔ d.containsKind .struct = true ∨ d.containsKind .block = true := by
  rw [d.two_le_nesting_iff, d.containsKind_iff, d.containsKind_iff]
  constructor
  · rintro ⟨f, hf, hsome⟩
    rcases (h f.type (.field hf)).mp hsome with hkind | hkind
    · exact .inl ⟨f.type, .field hf, hkind⟩
    · exact .inr ⟨f.type, .field hf, hkind⟩
  · rintro (⟨u, hu, hkind⟩ | ⟨u, hu, hkind⟩)
    · exact exists_field_of_reaches hu ((h u hu).mpr (.inl hkind))
    · exact exists_field_of_reaches hu ((h u hu).mpr (.inr hkind))

end Definition

/-! ## Nesting of stored types -/

namespace Memo

variable {text : ν → String}

/-- The nesting that members carry is that of the fields of the definition. -/
theorem Entry.StandsFor.map_nesting {older : List (Definition ν)} {e : Entry ν}
    {d : Definition ν} (h : e.StandsFor text older d) :
    e.members.map (fun m => m.cell.nesting) = d.fields.map (fun f => f.type.nesting) := by
  rw [← List.forall₂_eq_eq_eq, List.forall₂_map_left_iff, List.forall₂_map_right_iff]
  exact h.members.imp fun _ _ hm => hm.cell.nesting

end Memo

/-- Nesting is the height of definitions, as far as a word can tell, for every type, and
for every type of a session, whatever has been changed about it since it was made. Stored
definitions answer as the plain ones, and their members carry the nesting of the fields.
A definition is nested more deeply than each of its fields, unless it is at the greatest
word, and at least twice exactly if it contains a struct or a block, provided that these
are the types within it that have a definition. -/
theorem nesting_is_height (text : ν → String) :
    (∀ t : Ty ν, ∃ height, t.IsHeight height ∧ t.nesting.toNat = min height (2 ^ 32 - 1)) ∧
    (∀ operations : List (Memo.Operation ν),
      let session := (Memo.Session.empty.run text operations).2
      (∀ c ∈ session.cells, ∃ height, (session.store.toTy c).IsHeight height ∧
        c.nesting.toNat = min height (2 ^ 32 - 1)) ∧
      ∀ place d, session.store.definitionAt place = some d →
        (session.store.nestingAt place).1 = d.nesting ∧
        ∀ e, session.store.entry? place = some e →
          e.members.map (fun m => m.cell.nesting) = d.fields.map (fun f => f.type.nesting)) ∧
    ∀ d : Definition ν,
      (d.nesting ≠ 0xFFFFFFFF → ∀ f ∈ d.fields, f.type.nesting < d.nesting) ∧
      ((∀ u, d.Reaches u → (u.definition?.isSome ↔ u.kind = .struct ∨ u.kind = .block)) →
        (2 ≤ d.nesting ↔ d.containsKind .struct = true ∨ d.containsKind .block = true)) := by
  refine ⟨fun t => ⟨t.height, t.isHeight_height, t.toNat_nesting⟩, fun operations => ?_,
    fun d => ⟨fun h f hf => d.nesting_lt h hf, d.two_le_nesting_iff_containsKind⟩⟩
  intro session
  have hstands := (Memo.performed_run text operations).session
  refine ⟨fun c hc => ?_, fun place d hd => ⟨?_, fun e he => ?_⟩⟩
  · obtain ⟨t, _, hct⟩ := Memo.exists_right_of_mem hstands.types hc
    rw [hstands.toTy hct, hct.nesting]
    exact ⟨t.height, t.isHeight_height, t.toNat_nesting⟩
  · rw [hstands.store.definitionAt] at hd
    exact (hstands.store.nestingAt hd).value
  · rw [hstands.store.definitionAt] at hd
    obtain ⟨e', he', hentry⟩ := hstands.store.exists_entry hd
    rw [he] at he'
    cases he'
    exact hentry.map_nesting

/-- A struct with an array of structs has two levels, and keeps them as an array. -/
theorem nesting_of_array_of_structs :
    let inner : Definition String := ⟨"Inner", .struct, [⟨"x", Ty.scalar .float⟩]⟩
    let outer : Definition String :=
      ⟨"Outer", .struct, [⟨"inner", (Ty.ofDefinition inner).withArrayLength 2⟩]⟩
    let operations : List (Memo.Operation String) :=
      [.ofKind .float .undefined .temporary 1 1, .define "Inner" .struct [("x", 0)],
        .ofDefinition 0, .edit 1 (.arrayLength 2), .define "Outer" .struct [("inner", 1)],
        .ofDefinition 1, .edit 2 (.arrayLength 3)]
    let session := (Memo.Session.empty.run id operations).2
    (∃ c ∈ session.cells,
      session.store.toTy c = (Ty.ofDefinition outer).withArrayLength 3 ∧ c.nesting.toNat = 2) ∧
      (session.store.definitionAt 1 = some outer ∧
        (session.store.nestingAt 1).1 = outer.nesting ∧
        ∃ e, session.store.entry? 1 = some e ∧ e.members.map (fun m => m.cell.nesting) = [1]) ∧
      (outer.nesting ≠ 0xFFFFFFFF ∧ ∀ f ∈ outer.fields, f.type.nesting < outer.nesting) ∧
      (∀ u, outer.Reaches u → (u.definition?.isSome ↔ u.kind = .struct ∨ u.kind = .block)) ∧
      (outer.containsKind .struct = true ∨ outer.containsKind .block = true) := by
  intro inner outer operations session
  obtain ⟨_, hsession, hplain⟩ := nesting_is_height (id : String → String)
  obtain ⟨hcells, hplaces⟩ := hsession operations
  have hstands := (Memo.performed_run id operations).session
  have hmem : (Ty.ofDefinition outer).withArrayLength 3 ∈
      (Memo.PlainSession.empty.run id operations).2.types := .tail _ (.tail _ (.head _))
  rw [← hstands.map_toTy] at hmem
  obtain ⟨c, hc, hct⟩ := List.mem_map.mp hmem
  obtain ⟨height, hheight, hnesting⟩ := hcells c hc
  have htwo : height = 2 := by
    rw [hct] at hheight
    exact hheight.unique (Ty.isHeight_height _)
  have hstored : (Memo.PlainSession.empty.run id operations).2.definitions[1]? = some outer := rfl
  have hplace : session.store.definitionAt 1 = some outer :=
    (hstands.store.definitionAt 1).trans hstored
  obtain ⟨hdefinition, hmembers⟩ := hplaces 1 outer hplace
  obtain ⟨e, he, _⟩ := hstands.store.exists_entry hstored
  have hword : outer.nesting ≠ 0xFFFFFFFF := by decide
  have hreach : ∀ u, outer.Reaches u →
      (u.definition?.isSome ↔ u.kind = .struct ∨ u.kind = .block) := by
    intro u hu
    cases hu with
    | field hf =>
        rw [List.mem_singleton.mp hf]
        decide
    | deeper hf hdef hu =>
        rw [List.mem_singleton.mp hf] at hdef
        cases hdef
        cases hu with
        | field hf =>
            rw [List.mem_singleton.mp hf]
            decide
        | deeper hf hdef _ =>
            rw [List.mem_singleton.mp hf] at hdef
            cases hdef
  refine ⟨⟨c, hc, hct, by rw [hnesting, htwo]; rfl⟩,
    ⟨hplace, hdefinition, e, he, (hmembers e he).trans rfl⟩,
    ⟨hword, (hplain outer).1 hword⟩, hreach, ?_⟩
  exact ((hplain outer).2 hreach).mp (by decide)

end ShaderScope
