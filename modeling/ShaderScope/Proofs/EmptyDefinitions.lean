import ShaderScope.Proofs.Pieces

/-!
# Definitions without fields

The name of a definition without fields is ended by a size digit, and the name of
another definition may end in such a digit as well. Two different types can
therefore have one mangled name. For that, each of the two has to hold both a
definition without fields and a definition whose name ends in a size digit: in all
other cases the mangled name still tells the type.

## Implementation notes

Of two readings of one text, the one that ends its names earlier has to take size
digits that the other one does not owe. The count has to come out even in the end,
so no name is ended earlier in one reading than in the other.
-/

namespace ShaderScope

namespace Ty

/-- No definition within the type has a name that ends in a size digit. -/
def Unnumbered (pool : Pool) (top : UInt8) (t : Ty Ident) : Prop :=
  t.Everywhere fun u => ∀ d, u.definition? = some d → ∀ n, 0 < n → n ≤ top →
    (pool.text d.name).toList.getLast? ≠ some (sizeChar n)

end Ty

/-- What is known about two types that stand at the same place of two texts: that
the definitions of the first one have fields, or that no name in the second one
ends in a size digit. -/
inductive Clue where
  | filled
  | unnumbered

namespace Clue

/-- What the clue says about the first type. -/
def Left (clue : Clue) (pool : Pool) (top : UInt8) (t : Ty Ident) : Prop :=
  t.WellFormed pool top ∧ (clue = filled → t.Filled)

/-- What the clue says about the second type. -/
def Right (clue : Clue) (pool : Pool) (top : UInt8) (u : Ty Ident) : Prop :=
  u.WellFormed pool top ∧ (clue = unnumbered → u.Unnumbered pool top)

theorem inherited_left (clue : Clue) (pool : Pool) (top : UInt8) :
    Inherited pool top (clue.Left pool top) where
  wellFormed := fun h => h.1
  field := fun h hd _ hf => ⟨h.1.field (Ty.definition?_of_base hd) hf,
    fun hclue => (h.2 hclue).field (Ty.definition?_of_base hd) hf⟩

theorem inherited_right (clue : Clue) (pool : Pool) (top : UInt8) :
    Inherited pool top (clue.Right pool top) where
  wellFormed := fun h => h.1
  field := fun h hd _ hf => ⟨h.1.field (Ty.definition?_of_base hd) hf,
    fun hclue => (h.2 hclue).field (Ty.definition?_of_base hd) hf⟩

end Clue

section

variable {clue : Clue} {pool : Pool} {top : UInt8} {t u : Ty Ident} {ps qs : List Piece}

/-- The name on the left cannot be the beginning of a longer name on the right: the
first field would have to continue it, or the longer name would end in a digit. -/
theorem eq_nil_of_clue (ht : clue.Left pool top t) (hu : clue.Right pool top u)
    (hps : ∀ p ∈ ps, p.Ok (clue.Left pool top) top) {d e : Definition Ident}
    (hd : t.base = .defined d) (he : u.base = .defined e) {w x : List Char}
    (hname : (pool.text e.name).toList = (pool.text d.name).toList ++ w)
    (hrest : write pool.text (t.pieces ++ ps) = w ++ x) : w = [] := by
  have hword := (hu.1.self.named e (Ty.definition?_of_base he)).isWord
  have hw : ∀ c ∈ w, isWordChar c = true :=
    fun c hc => hword c (hname ▸ List.mem_append_right _ hc)
  cases clue with
  | filled =>
      have hfields := (ht.2 rfl).self d (Ty.definition?_of_base hd)
      obtain ⟨f, fs, hcons⟩ := List.exists_cons_of_ne_nil hfields
      rw [Ty.pieces, hd, Base.fieldPieces, hcons] at hrest
      cases w with
      | nil => rfl
      | cons c w =>
          have hhead := congrArg List.head? hrest
          rw [List.map_cons, List.cons_append, List.cons_append, head?_write_cons] at hhead
          have hdash : '-' = c := Option.some.inj hhead
          have hc := hw c List.mem_cons_self
          rw [← hdash] at hc
          exact absurd hc (by decide)
  | unnumbered =>
      rcases List.eq_nil_or_concat w with hnil | ⟨w', c, hconcat⟩
      · exact hnil
      · exfalso
        rw [List.concat_eq_append] at hconcat
        obtain ⟨_, ns, _, _, _, hdigits, hns⟩ := exists_suffix_of_write_eq_append
          (ok_append ((Clue.inherited_left _ _ _).ok_pieces ht) hps) hw hrest
        obtain ⟨n, hn, rfl⟩ : ∃ n ∈ ns, sizeChar n = c := by
          apply List.mem_map.mp
          rw [← hdigits, hconcat]
          simp
        apply (hu.2 rfl).self e (Ty.definition?_of_base he) n (hns n hn).1 (hns n hn).2
        rw [hname, hconcat, ← List.append_assoc, List.getLast?_concat]

/-- The name on the left does not end earlier than the name on the right. -/
theorem exists_nameChars_eq_append (ht : clue.Left pool top t) (hu : clue.Right pool top u)
    (hps : ∀ p ∈ ps, p.Ok (clue.Left pool top) top)
    (hdef : t.definition?.isSome = u.definition?.isSome)
    (h : t.base.nameChars pool.text ++ write pool.text (t.pieces ++ ps) =
      u.base.nameChars pool.text ++ write pool.text (u.pieces ++ qs)) :
    ∃ w, (∀ c ∈ w, isWordChar c = true) ∧
      t.base.nameChars pool.text = u.base.nameChars pool.text ++ w ∧
      write pool.text (u.pieces ++ qs) = w ++ write pool.text (t.pieces ++ ps) := by
  have hword := ht.1.isWordChar_of_mem_nameChars
  rcases List.append_eq_append_iff.mp h with ⟨w, hname, hrest⟩ | ⟨w, hname, hrest⟩
  · have hnil : w = [] := by
      cases he : u.base with
      | plain k =>
          rw [he, Base.nameChars] at hname
          exact (List.append_eq_nil_iff.mp hname.symm).2
      | defined e =>
          rw [Ty.definition?_of_base he] at hdef
          cases hd : t.base with
          | plain k =>
              rw [Ty.definition?_of_plain hd] at hdef
              cases hdef
          | defined d =>
              rw [hd, he] at hname
              exact eq_nil_of_clue ht hu hps hd he hname hrest
    subst hnil
    exact ⟨[], by simp, by simpa using hname.symm, hrest.symm⟩
  · exact ⟨w, fun c hc => hword c (hname ▸ List.mem_append_right _ hc), hname, hrest⟩

/-- A field is longer than what stands behind its opening and its name. -/
theorem length_write_pieces_lt (ht : clue.Left pool top t) (ps : List Piece) :
    (write pool.text (t.pieces ++ ps)).length < (write pool.text (.field t :: ps)).length := by
  rw [write, ht.1.self.mangleOnto_eq, Ty.inside_eq_write]
  simp only [List.length_cons, List.length_append]
  omega

/-- Where the name on the right ends earlier, size digits on the right are used up. -/
theorem exists_pieces_of_mangleOnto_eq (htop : top ≤ 9) (ht : clue.Left pool top t)
    (hu : clue.Right pool top u) (hps : ∀ p ∈ ps, p.Ok (clue.Left pool top) top)
    (hqs : ∀ q ∈ qs, q.Ok (clue.Right pool top) top)
    (h : t.mangleOnto pool.text (write pool.text ps) =
      u.mangleOnto pool.text (write pool.text qs)) :
    ∃ rs, (∀ r ∈ rs, r.Ok (clue.Right pool top) top) ∧
      write pool.text rs = write pool.text (t.pieces ++ ps) ∧ t.shape.mark = u.shape.mark ∧
      owed rs ≤ owed (u.pieces ++ qs) := by
  obtain ⟨hmark, hkind, hinside⟩ := Ty.opening_of_mangleOnto_eq
    (ht.1.mono_top htop).self (hu.1.mono_top htop).self h
  rw [Ty.inside_eq_write, Ty.inside_eq_write] at hinside
  have hok := ok_append ((Clue.inherited_right _ _ _).ok_pieces hu) hqs
  have hdef : t.definition?.isSome = u.definition?.isSome := by
    rw [ht.1.self.defined_iff, hu.1.self.defined_iff, hkind]
  obtain ⟨w, hw, _, hrest⟩ := exists_nameChars_eq_append ht hu hps hdef hinside
  obtain ⟨rs, _, hsuffix, hwrite, howed, _, _⟩ := exists_suffix_of_write_eq_append hok hw hrest
  refine ⟨rs, fun r hr => hok r (hsuffix.subset hr), hwrite, hmark, ?_⟩
  rw [howed]
  exact Nat.le_add_right _ _

/-- As the names on the left end no earlier, no more size digits are owed there. -/
theorem owed_le_of_write_eq (htop : top ≤ 9) (hps : ∀ p ∈ ps, p.Ok (clue.Left pool top) top)
    (hqs : ∀ q ∈ qs, q.Ok (clue.Right pool top) top)
    (h : write pool.text ps = write pool.text qs) : owed ps ≤ owed qs := by
  induction hn : (write pool.text ps).length using Nat.strongRecOn generalizing ps qs with
  | ind n ih =>
      subst hn
      cases ps with
      | nil => exact Nat.zero_le _
      | cons p ps =>
          cases qs with
          | nil =>
              have hhead := congrArg List.head? h
              rw [head?_write_cons] at hhead
              cases hhead
          | cons q qs =>
              have hp := hps p List.mem_cons_self
              have hq := hqs q List.mem_cons_self
              have hps' : ∀ p ∈ ps, p.Ok (clue.Left pool top) top :=
                fun p hp => hps p (List.mem_cons_of_mem _ hp)
              have hqs' : ∀ q ∈ qs, q.Ok (clue.Right pool top) top :=
                fun q hq => hqs q (List.mem_cons_of_mem _ hq)
              have hfirst : p.first = q.first := by
                have hhead := congrArg List.head? h
                rw [head?_write_cons, head?_write_cons] at hhead
                exact Option.some.inj hhead
              rcases Piece.sort_of_first_eq htop hp hq hfirst with
                ⟨t, u, rfl, rfl⟩ | ⟨n, rfl, rfl⟩ | ⟨m, n, rfl, rfl⟩
              · simp only [write, List.cons.injEq, true_and] at h
                obtain ⟨rs, hrs, hwrite, hmark, howed⟩ :=
                  exists_pieces_of_mangleOnto_eq htop hp hq hps' hqs' h
                have hle := ih _ (length_write_pieces_lt hp ps)
                  (ok_append ((Clue.inherited_left _ _ _).ok_pieces hp) hps') hrs hwrite.symm rfl
                rw [owed_append] at hle howed
                have hpieces := Ty.owed_pieces_eq hmark
                change owed ps ≤ owed qs
                omega
              · simp only [write, List.cons.injEq, true_and] at h
                have hle := ih _ (by simp [write]) hps' hqs' h rfl
                rw [owed, owed, List.countP_cons_of_pos rfl, List.countP_cons_of_pos rfl]
                exact Nat.succ_le_succ hle
              · obtain ⟨rfl, hrest⟩ := bracket_append_inj h
                have hshorter : (write pool.text ps).length <
                    (write pool.text (.length m :: ps)).length := by
                  simp only [write, lengthChars, List.length_append, List.length_cons]
                  omega
                have hle := ih _ hshorter hps' hqs' hrest rfl
                rw [owed, owed, List.countP_cons_of_neg (by simp [Piece.isSize]),
                  List.countP_cons_of_neg (by simp [Piece.isSize])]
                exact hle

/-- The counts of two readings come out even only if their names end alike. -/
theorem delimited_of_clue (clue : Clue) (pool : Pool) {top : UInt8} (htop : top ≤ 9) :
    Delimited pool (fun t u => clue.Left pool top t ∧ clue.Right pool top u)
      (Balanced pool.text top (clue.Left pool top) (clue.Right pool top)) := by
  refine delimited_of_names htop (clue.inherited_left pool top) (clue.inherited_right pool top) ?_
  intro t u d e ps qs ht hu hps hqs hd he hbalance h
  have hokT := ok_append ((Clue.inherited_left _ _ _).ok_pieces ht) hps
  have hokU := ok_append ((Clue.inherited_right _ _ _).ok_pieces hu) hqs
  have hdef : t.definition?.isSome = u.definition?.isSome := by
    rw [Ty.definition?_of_base hd, Ty.definition?_of_base he]
    rfl
  obtain ⟨w, hw, hname, hrest⟩ := exists_nameChars_eq_append ht hu hps hdef h
  obtain ⟨rs, _, hsuffix, hwrite, howed, _, _⟩ := exists_suffix_of_write_eq_append hokU hw hrest
  have hle := owed_le_of_write_eq htop hokT (fun r hr => hokU r (hsuffix.subset hr)) hwrite.symm
  have hnil : w = [] := List.eq_nil_of_length_eq_zero (by omega)
  rw [hname, hnil, List.append_nil]

end

/-- A type that no other type is taken for: its definitions have fields, or none of
their names ends in a size digit. -/
def Ty.Readable (pool : Pool) (top : UInt8) (t : Ty Ident) : Prop :=
  t.Filled ∨ t.Unnumbered pool top

theorem same_of_mangled_eq_of_clue (clue : Clue) {pool : Pool} {t u : Ty Ident}
    (ht : clue.Left pool 9 t) (hu : clue.Right pool 9 u)
    (h : t.mangled pool.text = u.mangled pool.text) : t.same u = true :=
  ((delimited_of_clue clue pool (by decide)).same_of_mangleOnto_eq t u [] [] ⟨ht, hu⟩
    (balanced_nil _ _ _ _) (String.ofList_inj.mp h)).1

/-- The mangled name of a readable type is the name of no type but its equals. -/
theorem same_iff_mangled_eq_of_readable {pool : Pool} {t u : Ty Ident}
    (ht : t.WellFormed pool 9) (hu : u.WellFormed pool 9)
    (hreadable : t.Readable pool 9 ∨ u.Readable pool 9) :
    t.same u = true ↔ t.mangled pool.text = u.mangled pool.text := by
  refine ⟨Ty.mangled_of_same pool.text, fun h => ?_⟩
  rcases hreadable with (hfilled | hunnumbered) | (hfilled | hunnumbered)
  · exact same_of_mangled_eq_of_clue .filled ⟨ht, fun _ => hfilled⟩ ⟨hu, nofun⟩ h
  · exact Ty.same_symm
      (same_of_mangled_eq_of_clue .unnumbered ⟨hu, nofun⟩ ⟨ht, fun _ => hunnumbered⟩ h.symm)
  · exact Ty.same_symm
      (same_of_mangled_eq_of_clue .filled ⟨hu, fun _ => hfilled⟩ ⟨ht, nofun⟩ h.symm)
  · exact same_of_mangled_eq_of_clue .unnumbered ⟨ht, nofun⟩ ⟨hu, fun _ => hunnumbered⟩ h

/-- A struct with a field is told from a struct without fields, although the name of the
latter is that of the former with a size digit behind it. -/
theorem mangled_ne_of_filled_beside_numbered :
    let a := Pool.blank.intern "a"
    let a1 := a.2.intern "a1"
    let filled : Ty Ident := .ofDefinition ⟨a.1, .struct, [⟨a1.1, Ty.scalar .float⟩]⟩
    let numbered : Ty Ident := .ofDefinition ⟨a1.1, .struct, []⟩
    (filled.WellFormed a1.2 9 ∧ numbered.WellFormed a1.2 9 ∧
      (filled.Readable a1.2 9 ∨ numbered.Readable a1.2 9)) ∧
      filled.mangled a1.2.text ≠ numbered.mangled a1.2.text := by
  intro a a1 filled numbered
  have ha : a1.2.Names a.1 :=
    (Pool.names_intern Pool.blank (by decide)).mono (Pool.grows_intern a.2 "a1")
  have ha1 : a1.2.Names a1.1 := Pool.names_intern a.2 (by decide)
  have hfloat : (Ty.scalar .float : Ty Ident).WellFormed a1.2 9 :=
    Ty.everywhere_of_plain rfl (Ty.sound_of_plain rfl rfl (by decide) (by decide))
  have hfilled : filled.WellFormed a1.2 9 :=
    Ty.everywhere_of_defined rfl (Ty.sound_of_defined rfl ha (by decide) (by decide))
      (List.forall_mem_singleton.mpr hfloat)
  have hnumbered : numbered.WellFormed a1.2 9 :=
    Ty.everywhere_of_defined rfl (Ty.sound_of_defined rfl ha1 (by decide) (by decide))
      (List.forall_mem_nil _)
  have hreadable : filled.Readable a1.2 9 ∨ numbered.Readable a1.2 9 := by
    refine .inl (.inl (Ty.everywhere_of_defined rfl ?_ (List.forall_mem_singleton.mpr ?_)))
    · intro d hd
      cases hd
      exact List.cons_ne_nil _ _
    · exact Ty.everywhere_of_plain rfl nofun
  refine ⟨⟨hfilled, hnumbered, hreadable⟩, fun h => ?_⟩
  have hsame := (same_iff_mangled_eq_of_readable hfilled hnumbered hreadable).mpr h
  simp [filled, numbered, Ty.same, Base.same, Definition.same, sameFieldTypes,
    Ty.ofDefinition] at hsame

end ShaderScope
