import ShaderScope.Proofs.StoredAnswers

/-!
# Sessions answer as plain sessions

A session stands for the plain session that has performed the same operations. Each
operation keeps this up, and each answer on the way is that of the plain types as they
are by then. A type forgets its mangled name when its array length changes, and what it
keeps otherwise does not depend on what has changed.
-/

namespace ShaderScope.Memo

variable {ν : Type} {text : ν → String} {definitions : List (Definition ν)}

/-! ## Questions to types -/

/-- A question to a type has the right answer, and neither the type nor the store stands
for anything else afterwards. -/
structure Learned {α : Type} (text : ν → String) (definitions : List (Definition ν))
    (asked : α × Cell × Store ν) (right : α) (t : Ty ν) : Prop where
  value : asked.1 = right
  cell : asked.2.1.StandsFor text definitions t
  store : asked.2.2.StandsFor text definitions

namespace Store.StandsFor

variable {store : Store ν} {c : Cell} {t : Ty ν}

theorem mangled (h : store.StandsFor text definitions) (hc : c.StandsFor text definitions t) :
    Learned text definitions (store.mangled text c) (t.mangled text) t := by
  unfold Store.mangled
  cases hmemo : c.mangled with
  | some s => exact ⟨hc.mangled s hmemo, hc, h⟩
  | none =>
      have hs := hc.assemble
      rcases hc.base.plain_or_stored with ⟨kind, hb, hp⟩ | ⟨place, d, hb, hp, hd⟩
      · rw [hp, Base.mangleOnto, List.append_nil] at hs
        rw [hb]
        exact ⟨hs, hc.remember hs, h⟩
      · have hdefinition := h.mangledAt hd
        rw [hp, Base.mangleOnto, ← Definition.mangledChars, ← Definition.mangled,
          ← hdefinition.value] at hs
        rw [hb]
        exact ⟨hs, hc.remember hs, hdefinition.store⟩

theorem size (h : store.StandsFor text definitions) (hc : c.StandsFor text definitions t) :
    Answered text definitions (store.size c) t.size := by
  obtain ⟨base, shape, arrayLength, qualifiers⟩ := t
  unfold Store.size
  rw [hc.arrayLength, hc.shape, Ty.size]
  rcases hc.base.plain_or_stored with ⟨kind, hb, rfl⟩ | ⟨place, d, hb, rfl, hd⟩
  · rw [hb, Base.size]
    exact ⟨rfl, h⟩
  · have hdefinition := h.sizeAt hd
    rw [hb, Base.size, ← hdefinition.value]
    exact ⟨rfl, hdefinition.store⟩

theorem definitionSize (h : store.StandsFor text definitions)
    (hc : c.StandsFor text definitions t) :
    Answered text definitions (store.definitionSize c) t.definitionSize := by
  obtain ⟨base, shape, arrayLength, qualifiers⟩ := t
  unfold Store.definitionSize
  rcases hc.base.plain_or_stored with ⟨kind, hb, rfl⟩ | ⟨place, d, hb, rfl, hd⟩
  · rw [hb]
    exact ⟨rfl, h⟩
  · rw [hb]
    exact h.sizeAt hd

theorem ofCell (h : store.StandsFor text definitions) (hc : c.StandsFor text definitions t)
    (question : Question) :
    Learned text definitions (question.ofCell text store c) (question.ofTy text t) t := by
  cases question with
  | mangled =>
      have hasked := h.mangled hc
      exact ⟨congrArg Answer.text hasked.value, hasked.cell, hasked.store⟩
  | size =>
      have hasked := h.size hc
      exact ⟨congrArg Answer.size hasked.value, hc, hasked.store⟩
  | definitionSize =>
      have hasked := h.definitionSize hc
      exact ⟨congrArg Answer.size hasked.value, hc, hasked.store⟩
  | nesting => exact ⟨congrArg Answer.nesting hc.nesting, hc, h⟩

theorem ofPlace_question (h : store.StandsFor text definitions) {place : Nat} {d : Definition ν}
    (hd : definitions[place]? = some d) (question : Question) :
    Answered text definitions (question.ofPlace text store place)
      (question.ofDefinition text d) := by
  cases question with
  | mangled =>
      have hasked := h.mangledAt hd
      exact ⟨congrArg Answer.text hasked.value, hasked.store⟩
  | size =>
      have hasked := h.sizeAt hd
      exact ⟨congrArg Answer.size hasked.value, hasked.store⟩
  | definitionSize =>
      have hasked := h.sizeAt hd
      exact ⟨congrArg Answer.size hasked.value, hasked.store⟩
  | nesting =>
      have hasked := h.nestingAt hd
      exact ⟨congrArg Answer.nesting hasked.value, hasked.store⟩

end Store.StandsFor

/-! ## New types -/

/-- A type that is made stands for a plain one, over a store that stands for the same. -/
structure Made (text : ν → String) (definitions : List (Definition ν)) (made : Cell × Store ν)
    (t : Ty ν) : Prop where
  cell : made.1.StandsFor text definitions t
  store : made.2.StandsFor text definitions

theorem Cell.StandsFor.ofKind (kind : Kind) (shape : Shape) (arrayLength : Option UInt32)
    (qualifiers : Qualifiers) :
    (Store.ofKind kind shape arrayLength qualifiers).StandsFor text definitions
      ⟨.plain kind, shape, arrayLength, qualifiers⟩ where
  base := .plain kind
  shape := rfl
  arrayLength := rfl
  qualifiers := rfl
  nesting := by
    rw [Ty.nesting, Base.nesting]
    rfl
  mangled := remembers_none _

namespace Store.StandsFor

variable {store : Store ν} {place : Nat} {d : Definition ν}

theorem ofPlace (h : store.StandsFor text definitions) (hd : definitions[place]? = some d)
    (shape : Shape) (arrayLength : Option UInt32) (qualifiers : Qualifiers) :
    Made text definitions (store.ofPlace place shape arrayLength qualifiers)
      ⟨.defined d, shape, arrayLength, qualifiers⟩ := by
  have hnesting := h.nestingAt hd
  refine ⟨⟨.stored hd, rfl, rfl, rfl, ?_, remembers_none _⟩, hnesting.store⟩
  rw [Ty.nesting, Base.nesting]
  exact hnesting.value

/-- A definition is dropped in the store exactly if it is dropped from the plain type. -/
theorem ofSpecifier (h : store.StandsFor text definitions) (s : Specifier ν)
    (place? : Option Nat) :
    Made text definitions (store.ofSpecifier s place?)
      (Specifier.toTy { s with definition? := place?.bind fun place => definitions[place]? }) := by
  have hplain : Made text definitions
      (Store.ofKind s.kind (.ofSizes s.rows s.columns) s.arrayLength s.qualifiers, store)
      ⟨.plain s.kind, .ofSizes s.rows s.columns, s.arrayLength, s.qualifiers⟩ :=
    ⟨.ofKind _ _ _ _, h⟩
  unfold Store.ofSpecifier Specifier.toTy Specifier.base
  cases place? with
  | none => exact hplain
  | some place =>
      rcases h.entry_cases place with ⟨he, hd⟩ | ⟨e, d, he, hd, hstands⟩
      · simpa [he, hd, Option.filter] using hplain
      · have hkind : e.form.kind = d.kind := by rw [hstands.form, Definition.kind]
        by_cases hsame : d.kind = s.kind
        · simpa [he, hd, hkind, hsame, Option.filter] using h.ofPlace hd _ _ _
        · simpa [he, hd, hkind, hsame, Option.filter] using hplain

end Store.StandsFor

/-! ## Changes of types -/

namespace Cell.StandsFor

variable {c : Cell} {t : Ty ν}

theorem withArrayLength (h : c.StandsFor text definitions t) (n : UInt32) :
    (c.withArrayLength n).StandsFor text definitions (t.withArrayLength n) where
  base := h.base
  shape := h.shape
  arrayLength := rfl
  qualifiers := h.qualifiers
  nesting := h.nesting.trans (t.nesting_withArrayLength n).symm
  mangled := remembers_none _

/-- The mangled name does not depend on the qualifiers, so it is kept. -/
theorem withQualifiers (h : c.StandsFor text definitions t) {mine plain : Qualifiers}
    (hsame : mine = plain) :
    Cell.StandsFor text definitions { c with qualifiers := mine }
      { t with qualifiers := plain } := by
  obtain ⟨base, shape, arrayLength, _⟩ := t
  exact { h with
    qualifiers := hsame
    nesting := by rw [h.nesting, Ty.nesting, Ty.nesting]
    mangled := fun s hs => by
      rw [h.mangled s hs, Ty.mangled, Ty.mangled, Ty.mangledChars_eq, Ty.mangledChars_eq] }

theorem edit (h : c.StandsFor text definitions t) (edit : Edit) :
    (edit.onCell c).StandsFor text definitions (edit.onTy t) := by
  cases edit with
  | arrayLength n => exact h.withArrayLength n
  | precision p => exact h.withQualifiers (by rw [h.qualifiers])
  | storage s => exact h.withQualifiers (by rw [h.qualifiers])

/-- A type that is no array is its own element, and may keep its mangled name. -/
theorem element (h : c.StandsFor text definitions t) :
    c.element.StandsFor text definitions t.element := by
  obtain ⟨base, shape, arrayLength, qualifiers⟩ := t
  unfold Cell.element
  split
  · exact { h with
      arrayLength := rfl
      nesting := by rw [h.nesting, Ty.element, Ty.nesting, Ty.nesting]
      mangled := remembers_none _ }
  · next hnot =>
      have hnone : arrayLength = none := by
        rwa [h.arrayLength, Option.not_isSome_iff_eq_none] at hnot
      subst hnone
      exact h

end Cell.StandsFor

/-! ## Sessions -/

/-- The types that are held stand for the plain ones, slot by slot, over the plain
definitions. -/
structure Session.StandsFor (text : ν → String) (session : Session ν) (plain : PlainSession ν) :
    Prop where
  store : session.store.StandsFor text plain.definitions
  types : List.Forall₂ (Cell.StandsFor text plain.definitions) session.cells plain.types

/-- What has been performed has the plain answer, and leads to a session for the plain one. -/
structure Performed {α : Type} (text : ν → String) (performed : α × Session ν)
    (plain : α × PlainSession ν) : Prop where
  answer : performed.1 = plain.1
  session : performed.2.StandsFor text plain.2

/-- What is there in both sessions, or in neither. -/
theorem forall₂_toList_map {α β γ δ : Type} {R : α → β → Prop} {S : γ → δ → Prop} {f : α → γ}
    {g : β → δ} (hfg : ∀ a b, R a b → S (f a) (g b)) {a? : Option α} {b? : Option β}
    (h : Option.Rel R a? b?) : List.Forall₂ S (a?.toList.map f) (b?.toList.map g) := by
  cases h with
  | none => exact .nil
  | some hab => exact .cons (hfg _ _ hab) .nil

namespace Session.StandsFor

variable {session : Session ν} {plain : PlainSession ν}

theorem empty : (Session.empty : Session ν).StandsFor text PlainSession.empty :=
  ⟨.empty, .nil⟩

theorem slot (h : session.StandsFor text plain) (slot : Nat) :
    Option.Rel (Cell.StandsFor text plain.definitions) session.cells[slot]? plain.types[slot]? :=
  forall₂_getElem? h.types slot

theorem member? (h : session.StandsFor text plain) (place index : Nat) :
    Option.Rel (Member.StandsFor text (plain.definitions.take place))
      (session.store.member? place index) (plain.field? place index) := by
  unfold Store.member? PlainSession.field?
  rcases h.store.entry_cases place with ⟨he, hd⟩ | ⟨e, d, he, hd, hstands⟩
  · rw [he, hd]
    exact .none
  · rw [he, hd]
    exact forall₂_getElem? hstands.members index

theorem holdAll (h : session.StandsFor text plain) {cells : List Cell} {types : List (Ty ν)}
    (hnew : List.Forall₂ (Cell.StandsFor text plain.definitions) cells types) :
    (session.holdAll cells).StandsFor text (plain.holdAll types) :=
  ⟨h.store, List.rel_append h.types hnew⟩

theorem hold (h : session.StandsFor text plain) {made : Cell × Store ν} {t : Ty ν}
    (hmade : Made text plain.definitions made t) :
    (session.hold made).StandsFor text (plain.holdAll [t]) :=
  ⟨hmade.store, List.rel_append h.types (.cons hmade.cell .nil)⟩

theorem members (h : session.StandsFor text plain) (names : List (ν × Nat)) :
    List.Forall₂ (Member.StandsFor text plain.definitions) (session.members names)
      (plain.fields names) := by
  refine List.rel_filterMap ?_ (List.forall₂_same.mpr fun _ _ => rfl)
  rintro ⟨name, slot⟩ _ rfl
  rcases rel_cases (h.slot slot) with ⟨hc, ht⟩ | ⟨c, t, hc, ht, hstands⟩
  · simp only [hc, ht]
    exact .none
  · simp only [hc, ht]
    exact .some ⟨rfl, hstands⟩

/-- Types over the definitions so far are types over one more. -/
theorem define (h : session.StandsFor text plain) (name : ν) (form : Form ν)
    (names : List (ν × Nat)) :
    Session.StandsFor text
      { session with store := (session.store.add name form (session.members names)).2 }
      { plain with definitions := plain.definitions ++ [⟨name, form, plain.fields names⟩] } where
  store := h.store.add name form (h.members names)
  types := h.types.imp fun _ _ hstands => hstands.mono (List.prefix_append _ _)

theorem copy (h : session.StandsFor text plain) (slots : List Nat) :
    List.Forall₂ (Cell.StandsFor text plain.definitions)
      (slots.filterMap fun slot => session.cells[slot]?)
      (slots.filterMap fun slot => plain.types[slot]?) := by
  refine List.rel_filterMap ?_ (List.forall₂_same.mpr fun _ _ => rfl)
  rintro slot _ rfl
  exact h.slot slot

/-- A type that is changed in place stands for the changed type of its slot. -/
theorem edit (h : session.StandsFor text plain) (slot : Nat) (edit : Edit) :
    Session.StandsFor text { session with cells := session.cells.modify slot edit.onCell }
      { plain with types := plain.types.modify slot edit.onTy } where
  store := h.store
  types := forall₂_modify_both h.types fun _ _ _ hc => hc.edit edit

theorem ask (h : session.StandsFor text plain) (slot : Nat) (question : Question) :
    Performed text (session.perform text (.ask slot question))
      (plain.perform text (.ask slot question)) := by
  rw [Session.perform, PlainSession.perform]
  rcases rel_cases (h.slot slot) with ⟨hc, ht⟩ | ⟨c, t, hc, ht, hstands⟩
  · rw [hc, ht]
    exact ⟨rfl, h⟩
  · rw [hc, ht]
    have hasked := h.store.ofCell hstands question
    refine ⟨congrArg some hasked.value, hasked.store, ?_⟩
    change List.Forall₂ _ (session.cells.set slot _) _
    rw [List.set_eq_modify]
    refine forall₂_modify h.types fun _ u hu _ => ?_
    rw [ht] at hu
    cases hu
    exact hasked.cell

theorem askMember (h : session.StandsFor text plain) (place index : Nat) (question : Question) :
    Performed text (session.perform text (.askMember place index question))
      (plain.perform text (.askMember place index question)) := by
  rw [Session.perform, PlainSession.perform]
  rcases rel_cases (h.member? place index) with ⟨hm, hf⟩ | ⟨m, f, hm, hf, hstands⟩
  · rw [hm, hf]
    exact ⟨rfl, h⟩
  · rw [hm, hf]
    have hasked := h.store.ofCell (hstands.mono (List.take_prefix _ _)).cell question
    refine ⟨congrArg some hasked.value, hasked.store.modify fun e d hd he => ?_, h.types⟩
    refine he.modifyMember index (fun c => { c with mangled := _ }) fun n g hg hn => ?_
    have hplain : plain.field? place index = some g := by
      rw [PlainSession.field?, hd]
      exact hg
    rw [hf] at hplain
    cases hplain
    exact { hn.cell with mangled := hasked.cell.mangled }

theorem perform (h : session.StandsFor text plain) (operation : Operation ν) :
    Performed text (session.perform text operation) (plain.perform text operation) := by
  cases operation with
  | ofKind kind precision storage rows columns =>
      exact ⟨rfl, h.holdAll (.cons (.ofKind _ _ _ _) .nil)⟩
  | ofDefinition place =>
      rw [Session.perform, PlainSession.perform]
      rcases h.store.entry_cases place with ⟨he, hd⟩ | ⟨e, d, he, hd, _⟩
      · rw [he, hd]
        exact ⟨rfl, by simpa [PlainSession.holdAll] using h⟩
      · rw [he, hd]
        exact ⟨rfl, h.hold (h.store.ofPlace hd _ _ _)⟩
  | ofSpecifier s place? => exact ⟨rfl, h.hold (h.store.ofSpecifier s place?)⟩
  | define name form members => exact ⟨rfl, h.define name form members⟩
  | copy slots => exact ⟨rfl, h.holdAll (h.copy slots)⟩
  | copyMember place index =>
      have hmember := forall₂_toList_map
        (fun _ _ hm => (hm.mono (List.take_prefix place plain.definitions)).cell)
        (h.member? place index)
      exact ⟨rfl, h.holdAll hmember⟩
  | edit slot edit => exact ⟨rfl, h.edit slot edit⟩
  | element slot =>
      exact ⟨rfl, h.holdAll (forall₂_toList_map (fun _ _ hc => hc.element) (h.slot slot))⟩
  | ask slot question => exact h.ask slot question
  | askMember place index question => exact h.askMember place index question
  | askDefinition place question =>
      rw [Session.perform, PlainSession.perform]
      rcases h.store.entry_cases place with ⟨he, hd⟩ | ⟨e, d, he, hd, _⟩
      · rw [he, hd]
        exact ⟨rfl, h⟩
      · rw [he, hd]
        have hasked := h.store.ofPlace_question hd question
        exact ⟨congrArg some hasked.value, hasked.store, h.types⟩

theorem run (h : session.StandsFor text plain) (operations : List (Operation ν)) :
    Performed text (session.run text operations) (plain.run text operations) := by
  induction operations generalizing session plain with
  | nil => exact ⟨rfl, h⟩
  | cons operation operations ih =>
      have hfirst := h.perform operation
      have hrest := ih hfirst.session
      exact ⟨congrArg₂ List.cons hfirst.answer hrest.answer, hrest.session⟩

theorem toTy (h : session.StandsFor text plain) {c : Cell} {t : Ty ν}
    (hc : c.StandsFor text plain.definitions t) : session.store.toTy c = t :=
  hc.toTy fun place _ hd => (h.store.definitionAt place).trans hd

theorem map_toTy (h : session.StandsFor text plain) :
    session.cells.map session.store.toTy = plain.types := by
  rw [← List.forall₂_eq_eq_eq, List.forall₂_map_left_iff]
  exact h.types.imp fun _ _ hc => h.toTy hc

end Session.StandsFor

/-- A new session and a new plain session answer the same operations alike. -/
theorem performed_run (text : ν → String) (operations : List (Operation ν)) :
    Performed text (Session.empty.run text operations)
      (PlainSession.empty.run text operations) :=
  Session.StandsFor.empty.run operations

end ShaderScope.Memo
