import Mathlib.Data.List.Forall2
import ShaderScope.Memo.Session
import ShaderScope.Proofs.StoredTypes

/-!
# Stored answers are right

A store stands for plain definitions, one for each place. Its members refer to older
places only, and whatever it remembers is what the plain definitions answer. A question
is answered from what is remembered or from the answers of older places, so the answer
is right as well, and the store stands for the same definitions afterwards.
-/

namespace ShaderScope.Memo

variable {ν : Type} {text : ν → String} {definitions : List (Definition ν)}

/-! ## What a store stands for -/

/-- An answer that is remembered is the right one. -/
def Remembers {α : Type} (memo : Option α) (right : α) : Prop :=
  ∀ a, memo = some a → a = right

theorem remembers_none {α : Type} (right : α) : Remembers none right :=
  fun _ h => nomatch h

theorem remembers_some {α : Type} {a right : α} (h : a = right) : Remembers (some a) right :=
  fun _ hb => (Option.some.inj hb).symm.trans h

/-- A place stands for the definition that the list has there. -/
inductive CellBase.StandsFor (definitions : List (Definition ν)) : CellBase → Base ν → Prop where
  | plain (kind : Kind) : StandsFor definitions (.plain kind) (.plain kind)
  | stored {place : Nat} {d : Definition ν} (h : definitions[place]? = some d) :
      StandsFor definitions (.stored place) (.defined d)

/-- A stored type agrees with a plain one, and what it remembers is right. -/
structure Cell.StandsFor (text : ν → String) (definitions : List (Definition ν)) (c : Cell)
    (t : Ty ν) : Prop where
  base : c.base.StandsFor definitions t.base
  shape : c.shape = t.shape
  arrayLength : c.arrayLength = t.arrayLength
  qualifiers : c.qualifiers = t.qualifiers
  nesting : c.nesting = t.nesting
  mangled : Remembers c.mangled (t.mangled text)

/-- A member agrees with a field in name and type. -/
structure Member.StandsFor (text : ν → String) (definitions : List (Definition ν)) (m : Member ν)
    (f : Field ν) : Prop where
  name : m.name = f.name
  cell : m.cell.StandsFor text definitions f.type

/-- The types of the members are made of the given older definitions. -/
structure Entry.StandsFor (text : ν → String) (older : List (Definition ν)) (e : Entry ν)
    (d : Definition ν) : Prop where
  name : e.name = d.name
  form : e.form = d.form
  members : List.Forall₂ (Member.StandsFor text older) e.members d.fields
  mangled : Remembers e.mangled (d.mangled text)
  size : Remembers e.size d.size
  nesting : Remembers e.nesting d.nesting

/-- The store has an entry for every definition, made of the definitions before it. -/
structure Store.StandsFor (text : ν → String) (store : Store ν)
    (definitions : List (Definition ν)) : Prop where
  count : store.entries.size = definitions.length
  entry : ∀ place, Option.Rel (Entry.StandsFor text (definitions.take place))
    (store.entry? place) definitions[place]?

/-- A question to a store has the right answer, and changes nothing of what it stands for. -/
structure Answered {α : Type} (text : ν → String) (definitions : List (Definition ν))
    (asked : α × Store ν) (right : α) : Prop where
  value : asked.1 = right
  store : asked.2.StandsFor text definitions

/-! ## Lists item by item -/

section Lists

variable {α β : Type} {R : α → β → Prop}

theorem getElem?_of_grown {as bs : List α} (h : as <+: bs) {i : Nat} {a : α}
    (ha : as[i]? = some a) : bs[i]? = some a := by
  obtain ⟨hi, rfl⟩ := List.getElem?_eq_some_iff.mp ha
  exact List.prefix_iff_getElem?.mp h i hi

theorem rel_cases {a? : Option α} {b? : Option β} (h : Option.Rel R a? b?) :
    (a? = none ∧ b? = none) ∨ ∃ a b, a? = some a ∧ b? = some b ∧ R a b := by
  cases h with
  | none => exact .inl ⟨rfl, rfl⟩
  | some hab => exact .inr ⟨_, _, rfl, rfl, hab⟩

theorem forall₂_getElem? {as : List α} {bs : List β} (h : List.Forall₂ R as bs) (i : Nat) :
    Option.Rel R as[i]? bs[i]? := by
  induction h generalizing i with
  | nil => exact .none
  | cons hab _ ih =>
      cases i with
      | zero => exact .some hab
      | succ i => exact ih i

theorem exists_right_of_mem {as : List α} {bs : List β} (h : List.Forall₂ R as bs) {a : α}
    (ha : a ∈ as) : ∃ b ∈ bs, R a b := by
  induction h with
  | nil => cases ha
  | cons hab _ ih =>
      rcases List.mem_cons.mp ha with rfl | ha
      · exact ⟨_, List.mem_cons_self, hab⟩
      · obtain ⟨b, hb, hab⟩ := ih ha
        exact ⟨b, List.mem_cons_of_mem _ hb, hab⟩

/-- Only the items that are changed have to be looked at. -/
theorem forall₂_modify_both {as : List α} {bs : List β} (h : List.Forall₂ R as bs) {i : Nat}
    {f : α → α} {g : β → β} (hfg : ∀ a b, bs[i]? = some b → R a b → R (f a) (g b)) :
    List.Forall₂ R (as.modify i f) (bs.modify i g) := by
  induction h generalizing i with
  | nil =>
      rw [List.modify_nil, List.modify_nil]
      exact .nil
  | cons hab htail ih =>
      cases i with
      | zero => exact .cons (hfg _ _ rfl hab) htail
      | succ i => exact .cons hab (ih hfg)

theorem forall₂_modify {as : List α} {bs : List β} (h : List.Forall₂ R as bs) {i : Nat}
    {f : α → α} (hf : ∀ a b, bs[i]? = some b → R a b → R (f a) b) :
    List.Forall₂ R (as.modify i f) bs := by
  have hboth := forall₂_modify_both (g := id) h hf
  rwa [List.modify_id] at hboth

end Lists

/-! ## Types -/

theorem CellBase.StandsFor.mono {more : List (Definition ν)} (hmore : definitions <+: more)
    {b : CellBase} {p : Base ν} (h : b.StandsFor definitions p) : b.StandsFor more p := by
  cases h with
  | plain kind => exact .plain kind
  | stored hplace => exact .stored (getElem?_of_grown hmore hplace)

theorem CellBase.StandsFor.plain_or_stored {b : CellBase} {p : Base ν}
    (h : b.StandsFor definitions p) :
    (∃ kind, b = .plain kind ∧ p = .plain kind) ∨
      ∃ place d, b = .stored place ∧ p = .defined d ∧ definitions[place]? = some d := by
  cases h with
  | plain kind => exact .inl ⟨kind, rfl, rfl⟩
  | stored hplace => exact .inr ⟨_, _, rfl, rfl, hplace⟩

namespace Cell.StandsFor

variable {c : Cell} {t : Ty ν}

theorem mono {more : List (Definition ν)} (hmore : definitions <+: more)
    (h : c.StandsFor text definitions t) : c.StandsFor text more t :=
  { h with base := h.base.mono hmore }

theorem remember (h : c.StandsFor text definitions t) {s : String} (hs : s = t.mangled text) :
    (c.remember s).StandsFor text definitions t :=
  { h with mangled := remembers_some hs }

/-- The parts of a mangled name, put together, are the whole. -/
theorem assemble (h : c.StandsFor text definitions t) :
    c.assemble (String.ofList (t.base.mangleOnto text [])) = t.mangled text := by
  rw [Cell.assemble, Ty.mangled, Ty.mangledChars_eq, h.shape, h.arrayLength, ← String.ofList_append,
    ← String.ofList_append, List.append_assoc]

end Cell.StandsFor

theorem Member.StandsFor.mono {more : List (Definition ν)} (hmore : definitions <+: more)
    {m : Member ν} {f : Field ν} (h : m.StandsFor text definitions f) :
    m.StandsFor text more f :=
  ⟨h.name, h.cell.mono hmore⟩

/-- A member whose type is changed has to stand for its field again. -/
theorem Entry.StandsFor.modifyMember {older : List (Definition ν)} {e : Entry ν} {d : Definition ν}
    (h : e.StandsFor text older d) (index : Nat) (change : Cell → Cell)
    (hchange : ∀ (m : Member ν) (f : Field ν), d.fields[index]? = some f →
      m.StandsFor text older f →
      (change m.cell).StandsFor text older f.type) :
    Entry.StandsFor text older
      { e with members := e.members.modify index fun m => { m with cell := change m.cell } } d :=
  { h with
    members := forall₂_modify h.members fun m f hf hm => ⟨hm.name, hchange m f hf hm⟩ }

namespace Store

/-! ## One member at a time -/

/-- The size of one element of a member, with what the store is afterwards. -/
def elementSize (store : Store ν) (place : Nat) (m : Member ν) : UInt64 × Store ν :=
  match m.cell.base with
  | .plain _ => (m.cell.shape.size, store)
  | .stored older => if older < place then store.sizeAt older else (0, store)

theorem sizeMembers_cons (store : Store ν) (place : Nat) (total : UInt64) (m : Member ν)
    (members : List (Member ν)) :
    store.sizeMembers place total (m :: members) =
      (store.elementSize place m).2.sizeMembers place
        (addSize total (repeatSize (store.elementSize place m).1 m.cell.arrayLength)) members := by
  rw [sizeMembers]
  rfl

/-- The encoding of what a member is made of. -/
def baseMangled (text : ν → String) (store : Store ν) (place : Nat) :
    CellBase → String × Store ν
  | .plain kind => (String.ofList kind.tagChars, store)
  | .stored older => if older < place then store.mangledAt text older else ("", store)

/-- The mangled name of a member, which is remembered if it has not been. -/
def memberMangled (text : ν → String) (store : Store ν) (place index : Nat) (m : Member ν) :
    String × Store ν :=
  match m.cell.mangled with
  | some s => (s, store)
  | none =>
      let asked := store.baseMangled text place m.cell.base
      let s := m.cell.assemble asked.1
      (s, asked.2.modify place (fun e => e.rememberMember index s))

theorem mangledMembers_cons (text : ν → String) (store : Store ν) (place index : Nat)
    (start : String) (m : Member ν) (members : List (Member ν)) :
    store.mangledMembers text place index start (m :: members) =
      (store.memberMangled text place index m).2.mangledMembers text place (index + 1)
        (start ++ "-" ++ (store.memberMangled text place index m).1) members := by
  rw [mangledMembers]
  cases hmemo : m.cell.mangled with
  | some s => simp only [memberMangled, hmemo]
  | none => cases hbase : m.cell.base <;> simp only [memberMangled, baseMangled, hmemo, hbase]

end Store

/-! ## Stores -/

namespace Store.StandsFor

variable {store : Store ν} {place : Nat} {d : Definition ν}

theorem empty : (Store.empty : Store ν).StandsFor text [] where
  count := rfl
  entry := by
    intro place
    rw [List.getElem?_nil]
    exact .none

theorem entry_cases (h : store.StandsFor text definitions) (place : Nat) :
    (store.entry? place = none ∧ definitions[place]? = none) ∨
      ∃ e d, store.entry? place = some e ∧ definitions[place]? = some d ∧
        e.StandsFor text (definitions.take place) d :=
  rel_cases (h.entry place)

theorem exists_entry (h : store.StandsFor text definitions) (hd : definitions[place]? = some d) :
    ∃ e, store.entry? place = some e ∧ e.StandsFor text (definitions.take place) d := by
  rcases h.entry_cases place with ⟨_, hnone⟩ | ⟨e, d', he, hd', hstands⟩
  · rw [hd] at hnone
    cases hnone
  · rw [hd] at hd'
    cases hd'
    exact ⟨e, he, hstands⟩

/-- A change of one entry has to keep what that entry stands for. -/
theorem modify (h : store.StandsFor text definitions) {change : Entry ν → Entry ν}
    (hchange : ∀ e d, definitions[place]? = some d →
      e.StandsFor text (definitions.take place) d →
      (change e).StandsFor text (definitions.take place) d) :
    (store.modify place change).StandsFor text definitions where
  count := by
    rw [← h.count]
    exact Array.size_modify
  entry := by
    intro other
    change Option.Rel _ (store.entries.modify place change)[other]? _
    rw [Array.getElem?_modify]
    split
    · next hother =>
        subst hother
        rcases h.entry_cases place with ⟨he, hd⟩ | ⟨e, d, he, hd, hstands⟩
        · rw [show store.entries[place]? = none from he, hd]
          exact .none
        · rw [show store.entries[place]? = some e from he, hd]
          exact .some (hchange e d hd hstands)
    · exact h.entry other

/-- A new definition is made of types over the definitions that are there. -/
theorem add (h : store.StandsFor text definitions) (name : ν) (form : Form ν)
    {members : List (Member ν)} {fields : List (Field ν)}
    (hmembers : List.Forall₂ (Member.StandsFor text definitions) members fields) :
    (store.add name form members).2.StandsFor text (definitions ++ [⟨name, form, fields⟩]) where
  count := by
    rw [List.length_append, ← h.count]
    exact Array.size_push _
  entry := by
    intro place
    change Option.Rel _ (store.entries.push _)[place]? _
    rw [Array.getElem?_push, h.count]
    split
    · next hplace =>
        rw [hplace, List.getElem?_concat_length, List.take_left]
        exact .some ⟨rfl, rfl, hmembers, remembers_none _, remembers_none _, remembers_none _⟩
    · next hplace =>
        have hentry := h.entry place
        rcases Nat.lt_or_gt_of_ne hplace with hlt | hgt
        · rwa [List.getElem?_append_left hlt, List.take_append_of_le_length (Nat.le_of_lt hlt)]
        · have hnone : (definitions ++ [⟨name, form, fields⟩])[place]? = none := by
            rw [List.getElem?_eq_none_iff, List.length_append]
            exact hgt
          rcases h.entry_cases place with ⟨he, _⟩ | ⟨e, d, _, hd, _⟩
          · rw [hnone, show store.entries[place]? = none from he]
            exact .none
          · rw [List.getElem?_eq_none (Nat.le_of_lt hgt)] at hd
            cases hd

/-- What changes in the entry at a place need only suit the definition there. -/
theorem modify_at (h : store.StandsFor text definitions) (hd : definitions[place]? = some d)
    {change : Entry ν → Entry ν}
    (hchange : ∀ e : Entry ν, e.StandsFor text (definitions.take place) d →
      (change e).StandsFor text (definitions.take place) d) :
    (store.modify place change).StandsFor text definitions := by
  refine h.modify fun e other hother hstands => ?_
  rw [hd] at hother
  cases hother
  exact hchange e hstands

/-! ## Nesting -/

/-- The nesting of its members is stored with them, so a definition need not ask. -/
theorem foldl_nesting {older : List (Definition ν)} {members : List (Member ν)}
    {fields : List (Field ν)} (h : List.Forall₂ (Member.StandsFor text older) members fields)
    (deepest : UInt32) :
    members.foldl (fun deepest m => max deepest m.cell.nesting) deepest =
      deepestField deepest fields := by
  induction h generalizing deepest with
  | nil => rfl
  | @cons m f members fields hfirst _ ih =>
      obtain ⟨name, type⟩ := f
      rw [List.foldl_cons, ih, hfirst.cell.nesting, deepestField]

theorem nestingAt (h : store.StandsFor text definitions) (hd : definitions[place]? = some d) :
    Answered text definitions (store.nestingAt place) d.nesting := by
  obtain ⟨e, he, hstands⟩ := h.exists_entry hd
  have hn : nestOnce (e.members.foldl (fun deepest m => max deepest m.cell.nesting) 0) =
      d.nesting := by
    rw [foldl_nesting hstands.members]
    obtain ⟨name, form, fields⟩ := d
    rw [Definition.nesting]
  unfold Store.nestingAt
  rw [he]
  cases hmemo : e.nesting with
  | some n => simpa only [hmemo] using ⟨hstands.nesting n hmemo, h⟩
  | none =>
      simp only [hmemo]
      exact ⟨hn, h.modify_at hd fun e' hstands' =>
        { hstands' with nesting := remembers_some hn }⟩

/-! ## Sizes -/

/-- The older definitions of a place are those before it. -/
theorem of_take {older : Nat} {e : Definition ν}
    (he : (definitions.take place)[older]? = some e) :
    older < place ∧ definitions[older]? = some e := by
  rw [List.getElem?_take] at he
  split at he
  · next hlt => exact ⟨hlt, he⟩
  · cases he

theorem elementSize (h : store.StandsFor text definitions) {m : Member ν} {f : Field ν}
    (hm : m.StandsFor text (definitions.take place) f)
    (hsize : ∀ older < place, ∀ e, definitions[older]? = some e →
      Answered text definitions (store.sizeAt older) e.size) :
    Answered text definitions (store.elementSize place m) (f.type.base.size f.type.shape) := by
  unfold Store.elementSize
  rcases hm.cell.base.plain_or_stored with ⟨kind, hb, hp⟩ | ⟨older, e, hb, hp, he⟩
  · rw [hb, hp, hm.cell.shape, Base.size]
    exact ⟨rfl, h⟩
  · obtain ⟨hlt, he⟩ := of_take he
    simpa only [hb, hp, if_pos hlt, Base.size] using hsize older hlt e he

/-- Given that older places answer rightly, the members at a place add up. -/
theorem sizeMembers {members : List (Member ν)} {fields : List (Field ν)}
    (hmembers : List.Forall₂ (Member.StandsFor text (definitions.take place)) members fields)
    (hsize : ∀ older < place, ∀ store : Store ν, store.StandsFor text definitions →
      ∀ e, definitions[older]? = some e → Answered text definitions (store.sizeAt older) e.size)
    (h : store.StandsFor text definitions) (total : UInt64) :
    Answered text definitions (store.sizeMembers place total members) (sizeFrom total fields) := by
  induction hmembers generalizing store total with
  | nil =>
      rw [Store.sizeMembers, sizeFrom]
      exact ⟨rfl, h⟩
  | @cons m f members fields hm _ ih =>
      have hfirst := h.elementSize hm fun older hlt e he => hsize older hlt store h e he
      rw [sizeMembers_cons, hfirst.value, hm.cell.arrayLength]
      obtain ⟨name, base, shape, arrayLength, qualifiers⟩ := f
      rw [sizeFrom, Ty.size]
      exact ih hfirst.store _

theorem sizeAt (h : store.StandsFor text definitions) (hd : definitions[place]? = some d) :
    Answered text definitions (store.sizeAt place) d.size := by
  induction place using Nat.strongRecOn generalizing store d with
  | ind place ih =>
      obtain ⟨e, he, hstands⟩ := h.exists_entry hd
      rw [Store.sizeAt, he]
      cases hmemo : e.size with
      | some n => simpa only [hmemo] using ⟨hstands.size n hmemo, h⟩
      | none =>
          have hsum : Answered text definitions (store.sizeMembers place 0 e.members) d.size := by
            have hfields := h.sizeMembers hstands.members
              (fun older hlt store hstore e he => ih older hlt hstore he) 0
            obtain ⟨name, form, fields⟩ := d
            rwa [Definition.size]
          simp only [hmemo]
          exact ⟨hsum.value, hsum.store.modify_at hd fun e' hstands' =>
            { hstands' with size := remembers_some hsum.value }⟩

/-! ## Mangled names -/

theorem baseMangled (h : store.StandsFor text definitions) {b : CellBase} {p : Base ν}
    (hb : b.StandsFor (definitions.take place) p)
    (hmangled : ∀ older < place, ∀ e, definitions[older]? = some e →
      Answered text definitions (store.mangledAt text older) (e.mangled text)) :
    Answered text definitions (store.baseMangled text place b)
      (String.ofList (p.mangleOnto text [])) := by
  cases hb with
  | plain kind => exact ⟨by simp only [Store.baseMangled, Base.mangleOnto, List.append_nil], h⟩
  | stored he =>
      obtain ⟨hlt, he⟩ := of_take he
      have holder := hmangled _ hlt _ he
      rw [Definition.mangled, Definition.mangledChars] at holder
      simpa only [Store.baseMangled, if_pos hlt, Base.mangleOnto] using holder

/-- The name of a member is remembered in the place where the member stands. -/
theorem memberMangled (h : store.StandsFor text definitions) (hd : definitions[place]? = some d)
    {index : Nat} {m : Member ν} {f : Field ν} (hf : d.fields[index]? = some f)
    (hm : m.StandsFor text (definitions.take place) f)
    (hmangled : ∀ older < place, ∀ e, definitions[older]? = some e →
      Answered text definitions (store.mangledAt text older) (e.mangled text)) :
    Answered text definitions (store.memberMangled text place index m) (f.type.mangled text) := by
  unfold Store.memberMangled
  cases hmemo : m.cell.mangled with
  | some s => exact ⟨hm.cell.mangled s hmemo, h⟩
  | none =>
      have hbase := h.baseMangled hm.cell.base hmangled
      have hs : m.cell.assemble (store.baseMangled text place m.cell.base).1 =
          f.type.mangled text := by
        rw [hbase.value, hm.cell.assemble]
      refine ⟨hs, hbase.store.modify_at hd fun e hstands => ?_⟩
      refine hstands.modifyMember index (fun c => c.remember _) fun n g hg hn => ?_
      rw [hf] at hg
      cases hg
      exact hn.cell.remember hs

/-- The members that are left are those from the index on, so that each of them is known
by its index when its name is remembered. -/
theorem mangledMembers (hd : definitions[place]? = some d)
    (hmangled : ∀ older < place, ∀ store : Store ν, store.StandsFor text definitions →
      ∀ e, definitions[older]? = some e →
        Answered text definitions (store.mangledAt text older) (e.mangled text))
    {members : List (Member ν)} {fields : List (Field ν)}
    (hmembers : List.Forall₂ (Member.StandsFor text (definitions.take place)) members fields)
    (h : store.StandsFor text definitions) {index : Nat} (hindex : d.fields.drop index = fields)
    (start : String) :
    Answered text definitions (store.mangledMembers text place index start members)
      (start ++ String.ofList (mangleFieldsOnto text fields [])) := by
  induction hmembers generalizing store index start with
  | nil =>
      rw [Store.mangledMembers, mangleFieldsOnto]
      exact ⟨by simp, h⟩
  | @cons m f members fields hm _ ih =>
      have hf : d.fields[index]? = some f := by
        rw [← List.head?_drop, hindex]
        rfl
      have hrest : d.fields.drop (index + 1) = fields := by
        rw [← List.tail_drop, hindex]
        rfl
      have hfirst := h.memberMangled hd hf hm fun older hlt e he => hmangled older hlt store h e he
      have htail := ih hfirst.store hrest
        (start ++ "-" ++ (store.memberMangled text place index m).1)
      rw [mangledMembers_cons]
      refine ⟨?_, htail.store⟩
      rw [htail.value, hfirst.value, ← append_mangleFieldsOnto_cons]

theorem mangledAt (h : store.StandsFor text definitions) (hd : definitions[place]? = some d) :
    Answered text definitions (store.mangledAt text place) (d.mangled text) := by
  induction place using Nat.strongRecOn generalizing store d with
  | ind place ih =>
      obtain ⟨e, he, hstands⟩ := h.exists_entry hd
      rw [Store.mangledAt, he]
      cases hmemo : e.mangled with
      | some s => simpa only [hmemo] using ⟨hstands.mangled s hmemo, h⟩
      | none =>
          have hs := mangledMembers hd (fun older hlt store hstore e he => ih older hlt hstore he)
            hstands.members h List.drop_zero (String.ofList e.form.mark ++ text e.name)
          rw [hstands.form, hstands.name, ← d.mangled_eq] at hs
          simp only [hmemo, hstands.form, hstands.name]
          exact ⟨hs.value, hs.store.modify_at hd fun e' hstands' =>
            { hstands' with mangled := remembers_some hs.value }⟩

end Store.StandsFor

/-! ## The types and definitions that are stored -/

theorem Cell.StandsFor.toTy {store : Store ν} {c : Cell} {t : Ty ν}
    (h : c.StandsFor text definitions t)
    (hstore : ∀ (place : Nat) (d : Definition ν), definitions[place]? = some d →
      store.definitionAt place = some d) : store.toTy c = t := by
  obtain ⟨base, shape, arrayLength, qualifiers⟩ := t
  unfold Store.toTy
  rw [h.shape, h.arrayLength, h.qualifiers]
  rcases h.base.plain_or_stored with ⟨kind, hb, rfl⟩ | ⟨place, d, hb, rfl, hd⟩
  · rw [hb]
  · simp only [hb, hstore place d hd, Option.map_some, Option.getD_some]

namespace Store.StandsFor

variable {store : Store ν}

theorem ordered (h : store.StandsFor text definitions) : store.Ordered := by
  intro place e he m hm older hbase
  rcases h.entry_cases place with ⟨hnone, _⟩ | ⟨e', d, he', _, hstands⟩
  · rw [he] at hnone
    cases hnone
  · rw [he] at he'
    cases he'
    obtain ⟨f, _, hmember⟩ := exists_right_of_mem hstands.members hm
    rcases hmember.cell.base.plain_or_stored with ⟨kind, hb, _⟩ | ⟨place', d', hb, _, hd⟩
    · rw [hbase] at hb
      cases hb
    · rw [hbase] at hb
      cases hb
      exact (of_take hd).1

/-- The definition at each place is the one that the store stands for. Its fields are
plain types again because older places have been dealt with. -/
theorem definitionAt (h : store.StandsFor text definitions) (place : Nat) :
    store.definitionAt place = definitions[place]? := by
  induction place using Nat.strongRecOn with
  | ind place ih =>
      rcases h.entry_cases place with ⟨he, hd⟩ | ⟨e, d, he, hd, hstands⟩
      · rw [hd, Store.definitionAt, he]
      · have hfields : e.members.map store.field = d.fields := by
          have holder : ∀ (older : Nat) (a : Definition ν),
              (definitions.take place)[older]? = some a → store.definitionAt older = some a := by
            intro older a ha
            obtain ⟨hlt, ha⟩ := of_take ha
            rw [ih older hlt, ha]
          rw [← List.forall₂_eq_eq_eq, List.forall₂_map_left_iff]
          refine hstands.members.imp fun m f hm => ?_
          rw [Store.field, hm.name, hm.cell.toTy holder]
          cases f
          rfl
        rw [h.ordered.definitionAt he, hstands.name, hstands.form, hfields, hd]
        cases d
        rfl

end Store.StandsFor

end ShaderScope.Memo
