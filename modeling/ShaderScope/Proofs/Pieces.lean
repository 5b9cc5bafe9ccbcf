import ShaderScope.Proofs.Signatures

/-!
# The pieces of an encoding

What stands behind a type is cut into pieces: fields, size digits and array
lengths. Size digits are the only pieces that a name could be continued by. Where
two readings of one text end a name at different places, the characters in between
are size digits to the reading that ends the name first.
-/

namespace ShaderScope

/-- A part of what stands behind a type: a field, a size digit, an array length. -/
inductive Piece where
  | field (t : Ty Ident)
  | size (n : UInt8)
  | length (n : UInt32)

namespace Piece

/-- The piece is a size digit. -/
def isSize : Piece → Bool
  | size _ => true
  | _ => false

/-- The first character of a piece. -/
def first : Piece → Char
  | field _ => '-'
  | size n => sizeChar n
  | length _ => '['

/-- The type of a field has a property, and a size is between one and a bound. -/
def Ok (P : Ty Ident → Prop) (top : UInt8) : Piece → Prop
  | field t => P t
  | size n => 0 < n ∧ n ≤ top
  | length _ => True

variable {P Q : Ty Ident → Prop} {top : UInt8}

/-- The first character tells the sort of a piece, and the whole of a size. -/
theorem sort_of_first_eq (htop : top ≤ 9) {p q : Piece} (hp : p.Ok P top) (hq : q.Ok Q top)
    (h : p.first = q.first) :
    (∃ t u, p = field t ∧ q = field u) ∨ (∃ n, p = size n ∧ q = size n) ∨
      ∃ m n, p = length m ∧ q = length n := by
  have hdigit : ∀ {n : UInt8}, 0 < n ∧ n ≤ top → sizeChar n ≠ '-' ∧ sizeChar n ≠ '[' := by
    intro n hn
    have hmem := sizeChar_mem_sizeDigits hn.1 (UInt8.le_trans hn.2 htop)
    constructor
    · intro heq
      rw [heq] at hmem
      exact absurd hmem (by decide)
    · intro heq
      rw [heq] at hmem
      exact absurd hmem (by decide)
  cases p with
  | field t =>
      cases q with
      | field u => exact .inl ⟨t, u, rfl, rfl⟩
      | size n => exact absurd h.symm (hdigit hq).1
      | length n => exact absurd (show '-' = '[' from h) (by decide)
  | size m =>
      cases q with
      | field u => exact absurd h (hdigit hp).1
      | size n =>
          have hmn := sizeChar_inj (UInt8.le_trans hp.2 htop) (UInt8.le_trans hq.2 htop) h
          exact .inr (.inl ⟨m, rfl, by rw [hmn]⟩)
      | length n => exact absurd h (hdigit hp).2
  | length m =>
      cases q with
      | field u => exact absurd (show '[' = '-' from h) (by decide)
      | size n => exact absurd h.symm (hdigit hq).2
      | length n => exact .inr (.inr ⟨m, n, rfl, rfl⟩)

end Piece

/-- The characters of pieces. -/
def write (text : Ident → String) : List Piece → List Char
  | [] => []
  | .field t :: ps => '-' :: t.mangleOnto text (write text ps)
  | .size n :: ps => sizeChar n :: write text ps
  | .length n :: ps => lengthChars (some n) ++ write text ps

/-- The number of size digits among pieces, apart from those inside of fields. -/
def owed (ps : List Piece) : Nat :=
  ps.countP Piece.isSize

theorem head?_write_cons (text : Ident → String) (p : Piece) (ps : List Piece) :
    (write text (p :: ps)).head? = some p.first := by
  cases p <;> rfl

theorem owed_append (ps qs : List Piece) : owed (ps ++ qs) = owed ps + owed qs :=
  List.countP_append

/-! ## The pieces of a type -/

/-- The fields of a base. -/
def Base.fieldPieces : Base Ident → List Piece
  | .plain _ => []
  | .defined d => d.fields.map (fun f => .field f.type)

/-- The name of a base. -/
def Base.nameChars (text : Ident → String) : Base Ident → List Char
  | .plain _ => []
  | .defined d => (text d.name).toList

namespace Ty

/-- The size digits of a type and, for an array, its length. -/
def closingPieces (t : Ty Ident) : List Piece :=
  (if t.shape.isMatrix then [.size t.shape.rows, .size t.shape.columns]
    else [.size t.shape.rows]) ++ t.arrayLength.toList.map .length

/-- What stands behind the opening and the name of a type. -/
def pieces (t : Ty Ident) : List Piece :=
  t.base.fieldPieces ++ t.closingPieces

theorem write_closingPieces (text : Ident → String) (t : Ty Ident) (ps : List Piece) :
    write text (t.closingPieces ++ ps) = t.closing (write text ps) := by
  unfold closingPieces closing Shape.sizeChars
  cases t.shape.isMatrix <;> cases t.arrayLength <;> simp [write, lengthChars]

theorem write_fields (text : Ident → String) (fields : List (Field Ident)) (ps : List Piece) :
    write text (fields.map (fun f => .field f.type) ++ ps) =
      mangleFieldsOnto text fields (write text ps) := by
  induction fields with
  | nil => simp [mangleFieldsOnto]
  | cons f fields ih =>
      obtain ⟨name, type⟩ := f
      simp only [List.map_cons, List.cons_append, write, mangleFieldsOnto, ih]

theorem inside_eq_write (text : Ident → String) (t : Ty Ident) (ps : List Piece) :
    t.base.inside text (t.closing (write text ps)) =
      t.base.nameChars text ++ write text (t.pieces ++ ps) := by
  have hbase : ∀ (b : Base Ident) (qs : List Piece), b.inside text (write text qs) =
      b.nameChars text ++ write text (b.fieldPieces ++ qs) := by
    intro b qs
    cases b with
    | plain k => rfl
    | defined d => rw [Base.fieldPieces, write_fields, Base.nameChars, Base.inside]
  calc
    t.base.inside text (t.closing (write text ps))
        = t.base.inside text (write text (t.closingPieces ++ ps)) := by
          rw [write_closingPieces]
    _ = t.base.nameChars text ++ write text (t.base.fieldPieces ++ (t.closingPieces ++ ps)) :=
        hbase _ _
    _ = t.base.nameChars text ++ write text (t.pieces ++ ps) := by
        rw [pieces, List.append_assoc]

theorem owed_fields (fields : List (Field Ident)) :
    owed (fields.map (fun f => .field f.type)) = 0 := by
  induction fields with
  | nil => rfl
  | cons f fields ih =>
      rw [List.map_cons, owed, List.countP_cons_of_neg (by simp [Piece.isSize])]
      exact ih

theorem owed_closingPieces (t : Ty Ident) :
    owed t.closingPieces = if t.shape.isMatrix then 2 else 1 := by
  unfold closingPieces owed
  cases t.shape.isMatrix <;> cases t.arrayLength <;> rfl

/-- Types with one shape mark end in the same number of size digits. -/
theorem owed_pieces_eq {t u : Ty Ident} (h : t.shape.mark = u.shape.mark) :
    owed t.pieces = owed u.pieces := by
  have hfields : ∀ b : Base Ident, owed b.fieldPieces = 0 := by
    intro b
    cases b with
    | plain k => rfl
    | defined d => exact owed_fields d.fields
  have hpieces : ∀ v : Ty Ident, owed v.pieces = if v.shape.isMatrix then 2 else 1 := by
    intro v
    rw [pieces, owed_append, hfields, owed_closingPieces, Nat.zero_add]
  calc
    owed t.pieces = if t.shape.isMatrix then 2 else 1 := hpieces t
    _ = if u.shape.isMatrix then 2 else 1 := by rw [Shape.isMatrix_of_mark_eq h]
    _ = owed u.pieces := (hpieces u).symm

/-- The type of every field has a property that a type hands down to its fields. -/
theorem ok_pieces {P : Ty Ident → Prop} {pool : Pool} {top : UInt8} {t : Ty Ident}
    (ht : t.Sound pool top)
    (hfields : ∀ d, t.base = .defined d → ∀ f ∈ d.fields, P f.type) :
    ∀ p ∈ t.pieces, p.Ok P top := by
  intro p hp
  rcases List.mem_append.mp hp with hp | hp
  · cases hbase : t.base with
    | plain k =>
        rw [hbase] at hp
        cases hp
    | defined d =>
        rw [hbase] at hp
        obtain ⟨f, hf, rfl⟩ := List.mem_map.mp hp
        exact hfields d hbase f hf
  · rcases List.mem_append.mp hp with hp | hp
    · have hrows := And.intro t.shape.rows_pos ht.rows_le
      have hcolumns := And.intro t.shape.columns_pos ht.columns_le
      cases hm : t.shape.isMatrix with
      | true =>
          simp only [hm, if_true, List.mem_cons, List.not_mem_nil, or_false] at hp
          rcases hp with rfl | rfl
          · exact hrows
          · exact hcolumns
      | false =>
          simp only [hm, Bool.false_eq_true, if_false, List.mem_singleton] at hp
          subst hp
          exact hrows
    · obtain ⟨n, _, rfl⟩ := List.mem_map.mp hp
      trivial

end Ty

theorem ok_append {P : Ty Ident → Prop} {top : UInt8} {ps qs : List Piece}
    (hps : ∀ p ∈ ps, p.Ok P top) (hqs : ∀ q ∈ qs, q.Ok P top) : ∀ p ∈ ps ++ qs, p.Ok P top :=
  fun p hp => (List.mem_append.mp hp).elim (hps p) (hqs p)

/-- Word characters in front of pieces are size digits of the first of them. -/
theorem exists_suffix_of_write_eq_append {P : Ty Ident → Prop} {top : UInt8}
    {text : Ident → String} {ps : List Piece} {w x : List Char} (hps : ∀ p ∈ ps, p.Ok P top)
    (hw : ∀ c ∈ w, isWordChar c = true) (h : write text ps = w ++ x) :
    ∃ (qs : List Piece) (ns : List UInt8), qs <:+ ps ∧ write text qs = x ∧
      owed ps = owed qs + w.length ∧ w = ns.map sizeChar ∧ ∀ n ∈ ns, 0 < n ∧ n ≤ top := by
  induction w generalizing ps with
  | nil => exact ⟨ps, [], List.suffix_rfl, h, rfl, rfl, by simp⟩
  | cons c w ih =>
      have hc := hw c List.mem_cons_self
      cases ps with
      | nil => simp [write] at h
      | cons p ps =>
          have hfirst : p.first = c := by
            have hhead := congrArg List.head? h
            rw [head?_write_cons] at hhead
            exact Option.some.inj hhead
          cases p with
          | field t =>
              rw [← show '-' = c from hfirst] at hc
              exact absurd hc (by decide)
          | length n =>
              rw [← show '[' = c from hfirst] at hc
              exact absurd hc (by decide)
          | size n =>
              simp only [write, List.cons_append, List.cons.injEq] at h
              obtain ⟨qs, ns, hsuffix, hwrite, howed, hw, hns⟩ :=
                ih (fun p hp => hps p (List.mem_cons_of_mem _ hp))
                  (fun c hc => hw c (List.mem_cons_of_mem _ hc)) h.2
              have hn := hps _ List.mem_cons_self
              refine ⟨qs, n :: ns, hsuffix.trans (List.suffix_cons _ _), hwrite, ?_, ?_, ?_⟩
              · rw [owed] at howed ⊢
                rw [List.countP_cons_of_pos rfl, howed, List.length_cons]
                omega
              · rw [List.map_cons, h.1, hw]
              · exact List.forall_mem_cons.mpr ⟨hn, hns⟩

namespace Ty

theorem WellFormed.isWordChar_of_mem_nameChars {pool : Pool} {top : UInt8} {t : Ty Ident}
    (h : t.WellFormed pool top) : ∀ c ∈ t.base.nameChars pool.text, isWordChar c = true := by
  cases hbase : t.base with
  | plain k =>
      intro c hc
      cases hc
  | defined d => exact (h.self.named d (Ty.definition?_of_base hbase)).isWord

end Ty

/-! ## Reading with pieces behind -/

/-- A property of well-formed types that a type hands down to its fields. -/
structure Inherited (pool : Pool) (top : UInt8) (P : Ty Ident → Prop) : Prop where
  wellFormed : ∀ {t}, P t → t.WellFormed pool top
  field : ∀ {t d}, P t → t.base = .defined d → ∀ f ∈ d.fields, P f.type

namespace Inherited

theorem ok_pieces {pool : Pool} {top : UInt8} {P : Ty Ident → Prop} (h : Inherited pool top P)
    {t : Ty Ident} (ht : P t) : ∀ p ∈ t.pieces, p.Ok P top :=
  Ty.ok_pieces (h.wellFormed ht).self (fun _ hd => h.field ht hd)

/-- The fields that are left of a definition, followed by what closes its type. -/
theorem ok_fields {pool : Pool} {top : UInt8} {P : Ty Ident → Prop} (h : Inherited pool top P)
    {t : Ty Ident} (ht : P t) {d : Definition Ident} (hd : t.base = .defined d)
    {fields : List (Field Ident)} (hfields : fields <:+ d.fields) {ps : List Piece}
    (hps : ∀ p ∈ ps, p.Ok P top) :
    ∀ p ∈ fields.map (fun f => .field f.type) ++ (t.closingPieces ++ ps), p.Ok P top := by
  refine ok_append ?_ (ok_append ?_ hps)
  · intro p hp
    obtain ⟨f, hf, rfl⟩ := List.mem_map.mp hp
    exact h.field ht hd f (hfields.subset hf)
  · intro p hp
    exact h.ok_pieces ht p (List.mem_append_right _ hp)

end Inherited

/-- The texts are made of pieces in which equally many size digits are owed. -/
def Balanced (text : Ident → String) (top : UInt8) (P Q : Ty Ident → Prop)
    (r s : List Char) : Prop :=
  ∃ ps qs, write text ps = r ∧ write text qs = s ∧ (∀ p ∈ ps, p.Ok P top) ∧
    (∀ q ∈ qs, q.Ok Q top) ∧ owed ps = owed qs ∧ r.head? ≠ some '[' ∧ s.head? ≠ some '['

theorem balanced_nil (text : Ident → String) (top : UInt8) (P Q : Ty Ident → Prop) :
    Balanced text top P Q [] [] :=
  ⟨[], [], rfl, rfl, by simp, by simp, rfl, by simp, by simp⟩

/-- With pieces behind the types, it is left to show that the names of two
definitions are equal. -/
theorem delimited_of_names {pool : Pool} {top : UInt8} (htop : top ≤ 9)
    {P Q : Ty Ident → Prop} (hP : Inherited pool top P) (hQ : Inherited pool top Q)
    (hname : ∀ {t u d e ps qs}, P t → Q u → (∀ p ∈ ps, p.Ok P top) → (∀ q ∈ qs, q.Ok Q top) →
      t.base = .defined d → u.base = .defined e →
      owed (t.pieces ++ ps) = owed (u.pieces ++ qs) →
      t.base.nameChars pool.text ++ write pool.text (t.pieces ++ ps) =
        u.base.nameChars pool.text ++ write pool.text (u.pieces ++ qs) →
      t.base.nameChars pool.text = u.base.nameChars pool.text) :
    Delimited pool (fun t u => P t ∧ Q u) (Balanced pool.text top P Q) where
  sound := fun h => ⟨((hP.wellFormed h.1).mono_top htop).self,
    ((hQ.wellFormed h.2).mono_top htop).self⟩
  field := fun h hd he hf hg => ⟨hP.field h.1 hd _ hf, hQ.field h.2 he _ hg⟩
  no_bracket := fun h => by
    obtain ⟨_, _, _, _, _, _, _, hr, hs⟩ := h
    exact ⟨hr, hs⟩
  inner := by
    rintro t u d e r s fs gs ⟨ht, hu⟩ ⟨ps, qs, rfl, rfl, hps, hqs, howed, _, _⟩ hmark hd he hfs hgs
    refine ⟨fs.map (fun f => .field f.type) ++ (t.closingPieces ++ ps),
      gs.map (fun g => .field g.type) ++ (u.closingPieces ++ qs), ?_, ?_,
      hP.ok_fields ht hd hfs hps, hQ.ok_fields hu he hgs hqs, ?_,
      ((hP.wellFormed ht).mono_top htop).self.head?_mangleFieldsOnto_ne _ _ _,
      ((hQ.wellFormed hu).mono_top htop).self.head?_mangleFieldsOnto_ne _ _ _⟩
    · rw [Ty.write_fields, Ty.write_closingPieces]
    · rw [Ty.write_fields, Ty.write_closingPieces]
    · rw [owed_append, owed_append, owed_append, owed_append, Ty.owed_fields, Ty.owed_fields,
        Ty.owed_closingPieces, Ty.owed_closingPieces, Shape.isMatrix_of_mark_eq hmark, howed]
  name := by
    rintro t u d e r s ⟨ht, hu⟩ ⟨ps, qs, rfl, rfl, hps, hqs, howed, _, _⟩ hmark hd he hinside
    rw [Ty.inside_eq_write, Ty.inside_eq_write] at hinside
    have hpieces : owed (t.pieces ++ ps) = owed (u.pieces ++ qs) := by
      rw [owed_append, owed_append, Ty.owed_pieces_eq hmark, howed]
    have hchars := hname ht hu hps hqs hd he hpieces hinside
    rw [hd, he] at hchars
    exact String.toList_inj.mp hchars

end ShaderScope
