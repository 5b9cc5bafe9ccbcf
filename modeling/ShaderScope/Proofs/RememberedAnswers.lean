import ShaderScope.Proofs.Sessions

/-!
# Remembered answers are current

Nothing that a session remembers can be seen in its answers. They are those of the plain
types that the stored ones are by then, and they stay the same if everything that has
been remembered is forgotten in between.
-/

namespace ShaderScope.Memo

variable {ν : Type} {text : ν → String} {definitions : List (Definition ν)}

/-! ## Forgetting -/

/-- The type without its mangled name. Its nesting is no memory, but a part of it. -/
def Cell.forget (c : Cell) : Cell :=
  { c with mangled := none }

/-- The member with a type that remembers nothing. -/
def Member.forget (m : Member ν) : Member ν :=
  { m with cell := m.cell.forget }

/-- The definition without its own answers and those of its members. -/
def Entry.forget (e : Entry ν) : Entry ν where
  name := e.name
  form := e.form
  members := e.members.map Member.forget

/-- The store with every definition forgetful. -/
def Store.forget (store : Store ν) : Store ν :=
  ⟨store.entries.map Entry.forget⟩

/-- The session with all memories empty. -/
def Session.forget (session : Session ν) : Session ν :=
  ⟨session.store.forget, session.cells.map Cell.forget⟩

theorem Cell.StandsFor.forget {c : Cell} {t : Ty ν} (h : c.StandsFor text definitions t) :
    c.forget.StandsFor text definitions t :=
  { h with mangled := remembers_none _ }

theorem Entry.StandsFor.forget {older : List (Definition ν)} {e : Entry ν} {d : Definition ν}
    (h : e.StandsFor text older d) : e.forget.StandsFor text older d where
  name := h.name
  form := h.form
  members := List.forall₂_map_left_iff.mpr
    (h.members.imp fun _ _ hm => ⟨hm.name, hm.cell.forget⟩)
  mangled := remembers_none _
  size := remembers_none _
  nesting := remembers_none _

theorem Store.StandsFor.forget {store : Store ν} (h : store.StandsFor text definitions) :
    store.forget.StandsFor text definitions where
  count := by
    rw [← h.count]
    exact Array.size_map
  entry := by
    intro place
    change Option.Rel _ (store.entries.map Entry.forget)[place]? _
    rw [Array.getElem?_map]
    rcases h.entry_cases place with ⟨he, hd⟩ | ⟨e, d, he, hd, hstands⟩
    · rw [show store.entries[place]? = none from he, hd]
      exact .none
    · rw [show store.entries[place]? = some e from he, hd]
      exact .some hstands.forget

/-- A session stands for the same plain session once it has forgotten everything. -/
theorem Session.StandsFor.forget {session : Session ν} {plain : PlainSession ν}
    (h : session.StandsFor text plain) : session.forget.StandsFor text plain where
  store := h.store.forget
  types := List.forall₂_map_left_iff.mpr (h.types.imp fun _ _ hc => hc.forget)

/-- No answer of a session is stale. Whatever has been made, copied, changed and asked
before, over whatever definitions are shared, the answers are those of plain types, which
remember nothing, and these are the types that are stored by then. Forgetting every
memory changes no answer from there on. The mangled name of a type whose length has just
been set is that of its element, with the length in brackets. -/
theorem remembered_answers_are_current (text : ν → String) (operations : List (Operation ν)) :
    let asked := Session.empty.run text operations
    let plain := PlainSession.empty.run text operations
    asked.1 = plain.1 ∧
      (asked.2.cells.map asked.2.store.toTy = plain.2.types ∧
        ∀ place, asked.2.store.definitionAt place = plain.2.definitions[place]?) ∧
      (∀ more, (asked.2.forget.run text more).1 = (asked.2.run text more).1) ∧
      ∀ c ∈ asked.2.cells, ∀ n, ∀ element ∈ [c.element, (c.withArrayLength n).element],
        (asked.2.store.mangled text (c.withArrayLength n)).1 =
          (asked.2.store.mangled text element).1 ++ "[" ++ toString n.toNat ++ "]" := by
  intro asked plain
  have hrun := performed_run text operations
  have hstands : asked.2.StandsFor text plain.2 := hrun.session
  refine ⟨hrun.answer, ⟨hstands.map_toTy, hstands.store.definitionAt⟩, fun more => ?_, ?_⟩
  · rw [(hstands.forget.run more).answer, (hstands.run more).answer]
  · intro c hc n element helement
    obtain ⟨t, _, hct⟩ := exists_right_of_mem hstands.types hc
    have hstrip : element.StandsFor text plain.2.definitions t.element := by
      rcases List.mem_pair.mp helement with rfl | rfl
      · exact hct.element
      · exact (hct.withArrayLength n).element
    rw [(hstands.store.mangled (hct.withArrayLength n)).value, Ty.mangled_withArrayLength,
      (hstands.store.mangled hstrip).value]

/-- A struct has a copy of an array that has been asked for its name. Copies of both keep
their names only until they are given a length. -/
theorem copies_answer_after_new_lengths :
    let operations : List (Operation String) :=
      [.ofKind .float .undefined .temporary 1 1, .edit 0 (.arrayLength 0), .ask 0 .mangled,
        .define "S" .struct [("x", 0)], .ofDefinition 0, .ask 1 .mangled, .copy [0, 1],
        .edit 2 (.arrayLength 7), .ask 2 .mangled, .edit 3 (.arrayLength 2), .ask 3 .mangled,
        .ask 3 .nesting, .ask 0 .mangled, .ask 1 .mangled]
    let asked := Session.empty.run id operations
    asked.1.reduceOption = [.text "f1[0]", .text "struct-S-f1[0]1", .text "f1[7]",
      .text "struct-S-f1[0]1[2]", .nesting 1, .text "f1[0]", .text "struct-S-f1[0]1"] ∧
    ∃ c ∈ asked.2.cells, (asked.2.store.toTy c).kind = .struct ∧
      (asked.2.store.mangled id (c.withArrayLength 5)).1 =
        (asked.2.store.mangled id c.element).1 ++ "[" ++ "5" ++ "]" := by
  intro operations asked
  obtain ⟨hanswers, ⟨htypes, _⟩, _, hlength⟩ := remembered_answers_are_current id operations
  refine ⟨hanswers ▸ rfl, ?_⟩
  have hmem : Ty.ofDefinition ⟨"S", .struct, [⟨"x", (Ty.scalar .float).withArrayLength 0⟩]⟩ ∈
      (PlainSession.empty.run id operations).2.types := .tail _ (.head _)
  rw [← htypes] at hmem
  obtain ⟨c, hc, hct⟩ := List.mem_map.mp hmem
  exact ⟨c, hc, congrArg Ty.kind hct, hlength c hc 5 _ List.mem_cons_self⟩

end ShaderScope.Memo
