import ShaderScope.Proofs.Pieces

/-!
# Names that are numbered

Where definitions may be without fields, equality of types and equality of mangled
names are the same thing exactly as long as no definition is named like another one
with size digits behind the name. A single pair of such names is enough for two
different types with one mangled name.
-/

namespace ShaderScope

/-- The first name is the second one with size digits behind it. -/
def Numbered (top : UInt8) (long short : String) : Prop :=
  ∃ n ns, (∀ k ∈ n :: ns, 0 < k ∧ k ≤ top) ∧
    long.toList = short.toList ++ (n :: ns).map sizeChar

namespace Ty

/-- Well formed, with definitions that are named in a vocabulary. -/
def Over (pool : Pool) (top : UInt8) (words : Ident → Prop) (t : Ty Ident) : Prop :=
  t.WellFormed pool top ∧ t.Everywhere fun u => ∀ d, u.definition? = some d → words d.name

end Ty

section

variable {pool : Pool} {top : UInt8} {words : Ident → Prop}

theorem inherited_over (pool : Pool) (top : UInt8) (words : Ident → Prop) :
    Inherited pool top (Ty.Over pool top words) where
  wellFormed := fun h => h.1
  field := fun h hd _ hf => ⟨h.1.field (Ty.definition?_of_base hd) hf,
    h.2.field (Ty.definition?_of_base hd) hf⟩

/-- A name is not the beginning of a longer one that could not be numbered. -/
theorem eq_nil_of_not_numbered {t u : Ty Ident} {d e : Definition Ident} {ps qs : List Piece}
    (hwords : ∀ c ∈ (pool.text e.name).toList, isWordChar c = true)
    (hd : t.base = .defined d) (he : u.base = .defined e)
    (hps : ∀ p ∈ t.pieces ++ ps, p.Ok (Ty.Over pool top words) top)
    (hnot : ¬ Numbered top (pool.text e.name) (pool.text d.name)) {w : List Char}
    (hname : u.base.nameChars pool.text = t.base.nameChars pool.text ++ w)
    (hrest : write pool.text (t.pieces ++ ps) = w ++ write pool.text (u.pieces ++ qs)) :
    w = [] := by
  rw [hd, he] at hname
  have hw : ∀ c ∈ w, isWordChar c = true :=
    fun c hc => hwords c (by rw [show (pool.text e.name).toList = _ from hname]; simp [hc])
  obtain ⟨_, ns, _, _, _, hdigits, hns⟩ := exists_suffix_of_write_eq_append hps hw hrest
  cases ns with
  | nil => exact hdigits
  | cons n ns =>
      rw [hdigits] at hname
      exact absurd ⟨n, ns, hns, hname⟩ hnot

theorem delimited_of_not_numbered (htop : top ≤ 9)
    (hfree : ∀ n m, words n → words m → ¬ Numbered top (pool.text m) (pool.text n)) :
    Delimited pool (fun t u => t.Over pool top words ∧ u.Over pool top words)
      (Balanced pool.text top (Ty.Over pool top words) (Ty.Over pool top words)) := by
  have hinherited := inherited_over pool top words
  refine delimited_of_names htop hinherited hinherited ?_
  intro t u d e ps qs ht hu hps hqs hd he _ h
  have hwordD := (ht.1.self.named d (Ty.definition?_of_base hd)).isWord
  have hwordE := (hu.1.self.named e (Ty.definition?_of_base he)).isWord
  have hmemD := ht.2.self d (Ty.definition?_of_base hd)
  have hmemE := hu.2.self e (Ty.definition?_of_base he)
  rcases List.append_eq_append_iff.mp h with ⟨w, hname, hrest⟩ | ⟨w, hname, hrest⟩
  · have hnil := eq_nil_of_not_numbered hwordE hd he (ok_append (hinherited.ok_pieces ht) hps)
      (hfree _ _ hmemD hmemE) hname hrest
    rw [hname, hnil, List.append_nil]
  · have hnil := eq_nil_of_not_numbered hwordD he hd (ok_append (hinherited.ok_pieces hu) hqs)
      (hfree _ _ hmemE hmemD) hname hrest
    rw [hname, hnil, List.append_nil]

end

/-! ## Two types with one mangled name -/

/-- A struct of some size. -/
def rung (name : Ident) (size : UInt8) (types : List (Ty Ident)) : Ty Ident where
  base := .defined ⟨name, .struct, types.map (fun t => ⟨.empty, t⟩)⟩
  shape := Shape.ofSizes size 1
  arrayLength := none
  qualifiers := {}

/-- A type inside of structs of one name, the sizes of which are given from the
innermost one to the outermost one. -/
def nest (name : Ident) (sizes : List UInt8) (t : Ty Ident) : Ty Ident :=
  sizes.foldl (fun t size => rung name size [t]) t

/-- A struct with an empty struct and, next to it, a numbered one. -/
def numberedBeside (outer short long : Ident) (n : UInt8) (ns : List UInt8) : Ty Ident :=
  rung outer 1 [nest short ns (rung short n []), nest short ns (rung long n [])]

/-- A struct with a numbered struct and, inside of that, an empty one. -/
def numberedAround (outer short long : Ident) (n : UInt8) (ns : List UInt8) : Ty Ident :=
  rung outer 1 [nest short ns (rung long n [nest short ns (rung short n [])])]

section

variable (text : Ident → String)

/-- What the encoding of a struct starts with. -/
def rungOpening (name : Ident) (size : UInt8) : List Char :=
  (Shape.ofSizes size 1).mark ++ ((Form.struct : Form Ident).mark ++ (text name).toList)

theorem mangleOnto_rung (name : Ident) {size : UInt8} (h : 0 < size) (types : List (Ty Ident))
    (rest : List Char) :
    (rung name size types).mangleOnto text rest = rungOpening text name size ++
      mangleFieldsOnto text (types.map (fun t => ⟨.empty, t⟩)) (sizeChar size :: rest) := by
  have hsize : (Shape.ofSizes size 1).sizeChars = [sizeChar size] := by
    change [sizeChar (Shape.atLeastOne size)] = _
    rw [Shape.atLeastOne_of_pos h]
  simp only [rung, Ty.mangleOnto, Base.mangleOnto, Definition.mangleOnto, hsize, lengthChars,
    rungOpening, List.append_assoc, List.cons_append, List.nil_append]

/-- What the encoding of nested structs starts with. -/
def nestOpening (name : Ident) : List UInt8 → List Char
  | [] => []
  | n :: ns => nestOpening name ns ++ (rungOpening text name n ++ ['-'])

theorem mangleOnto_nest (name : Ident) {sizes : List UInt8} (h : ∀ n ∈ sizes, 0 < n)
    (t : Ty Ident) (rest : List Char) :
    (nest name sizes t).mangleOnto text rest =
      nestOpening text name sizes ++ t.mangleOnto text (sizes.map sizeChar ++ rest) := by
  induction sizes generalizing t with
  | nil => rfl
  | cons n ns ih =>
      have htail := ih (fun k hk => h k (List.mem_cons_of_mem _ hk)) (rung name n [t])
      rw [mangleOnto_rung text name (h n List.mem_cons_self)] at htail
      simpa [nest, nestOpening, mangleFieldsOnto] using htail

/-- The digits that end the name of the numbered struct are read as the sizes of
structs, and those of the structs around the empty one the other way round. -/
theorem mangled_numberedBeside {outer short long : Ident} {n : UInt8} {ns : List UInt8}
    (hpos : ∀ k ∈ n :: ns, 0 < k)
    (hlong : (text long).toList = (text short).toList ++ (n :: ns).map sizeChar) :
    (numberedBeside outer short long n ns).mangled text =
      (numberedAround outer short long n ns).mangled text := by
  have hn := hpos n List.mem_cons_self
  have hns : ∀ k ∈ ns, 0 < k := fun k hk => hpos k (List.mem_cons_of_mem _ hk)
  have hopening : rungOpening text long n =
      rungOpening text short n ++ (n :: ns).map sizeChar := by
    rw [rungOpening, rungOpening, hlong]
    simp only [List.append_assoc]
  have hchars : (numberedBeside outer short long n ns).mangledChars text =
      (numberedAround outer short long n ns).mangledChars text := by
    simp only [numberedBeside, numberedAround, Ty.mangledChars, mangleOnto_rung text _ hn,
      mangleOnto_rung text outer (show (0 : UInt8) < 1 by decide), mangleOnto_nest text _ hns,
      List.map_cons, List.map_nil, mangleFieldsOnto, hopening]
    simp
  rw [Ty.mangled, Ty.mangled, hchars]

end

theorem same_numberedBeside (outer short long : Ident) (n : UInt8) (ns : List UInt8) :
    (numberedBeside outer short long n ns).same (numberedAround outer short long n ns) = false := by
  simp [numberedBeside, numberedAround, rung, Ty.same, Base.same, Definition.same, sameFieldTypes]

section

variable {pool : Pool} {top : UInt8} {words : Ident → Prop}

theorem over_rung (hpos : 0 < top) {name : Ident} (hname : words name) (hword : pool.Names name)
    {size : UInt8} (hsize : 0 < size ∧ size ≤ top) {types : List (Ty Ident)}
    (htypes : ∀ t ∈ types, t.Over pool top words) : (rung name size types).Over pool top words := by
  have hrows : (Shape.ofSizes size 1).rows ≤ top := by
    change Shape.atLeastOne size ≤ top
    rw [Shape.atLeastOne_of_pos hsize.1]
    exact hsize.2
  have hcolumns : (Shape.ofSizes size 1).columns ≤ top := by
    change 1 ≤ top.toNat
    exact UInt8.lt_iff_toNat_lt.mp hpos
  have hfields : ∀ f ∈ types.map (fun t => (⟨.empty, t⟩ : Field Ident)),
      f.type.Over pool top words := by
    intro f hf
    obtain ⟨t, ht, rfl⟩ := List.mem_map.mp hf
    exact htypes t ht
  constructor
  · exact Ty.everywhere_of_defined rfl (Ty.sound_of_defined rfl hword hrows hcolumns)
      (fun f hf => (hfields f hf).1)
  · refine Ty.everywhere_of_defined rfl ?_ (fun f hf => (hfields f hf).2)
    intro d hd
    cases hd
    exact hname

theorem over_nest (hpos : 0 < top) {name : Ident} (hname : words name) (hword : pool.Names name)
    {sizes : List UInt8} (hsizes : ∀ n ∈ sizes, 0 < n ∧ n ≤ top) {t : Ty Ident}
    (ht : t.Over pool top words) : (nest name sizes t).Over pool top words := by
  induction sizes generalizing t with
  | nil => exact ht
  | cons n ns ih =>
      apply ih (fun k hk => hsizes k (List.mem_cons_of_mem _ hk))
      exact over_rung hpos hname hword (hsizes n List.mem_cons_self) (by simpa using ht)

section

variable {outer short long : Ident} {n : UInt8} {ns : List UInt8} (hpos : 0 < top)
  (hwords : ∀ i, words i → pool.Names i) (houter : words outer) (hshort : words short)
  (hlong : words long) (hsizes : ∀ k ∈ n :: ns, 0 < k ∧ k ≤ top)

include hpos hwords houter hshort hlong hsizes

theorem over_numberedBeside :
    (numberedBeside outer short long n ns).Over pool top words := by
  have hone : (0 : UInt8) < 1 ∧ 1 ≤ top := ⟨by decide, UInt8.lt_iff_toNat_lt.mp hpos⟩
  have hns : ∀ k ∈ ns, 0 < k ∧ k ≤ top := fun k hk => hsizes k (List.mem_cons_of_mem _ hk)
  have hempty : ∀ {i}, words i → (nest short ns (rung i n [])).Over pool top words :=
    fun hi => over_nest hpos hshort (hwords _ hshort) hns
      (over_rung hpos hi (hwords _ hi) (hsizes n List.mem_cons_self) (by simp))
  refine over_rung hpos houter (hwords _ houter) hone ?_
  intro t ht
  rcases List.mem_pair.mp ht with rfl | rfl
  · exact hempty hshort
  · exact hempty hlong

theorem over_numberedAround :
    (numberedAround outer short long n ns).Over pool top words := by
  have hone : (0 : UInt8) < 1 ∧ 1 ≤ top := ⟨by decide, UInt8.lt_iff_toNat_lt.mp hpos⟩
  have hn := hsizes n List.mem_cons_self
  have hns : ∀ k ∈ ns, 0 < k ∧ k ≤ top := fun k hk => hsizes k (List.mem_cons_of_mem _ hk)
  have hinner : (nest short ns (rung short n [])).Over pool top words :=
    over_nest hpos hshort (hwords _ hshort) hns
      (over_rung hpos hshort (hwords _ hshort) hn (by simp))
  have haround : (nest short ns (rung long n [nest short ns (rung short n [])])).Over pool top
      words := over_nest hpos hshort (hwords _ hshort) hns
    (over_rung hpos hlong (hwords _ hlong) hn (by simpa using hinner))
  exact over_rung hpos houter (hwords _ houter) hone (by simpa using haround)

end

/-- Over a vocabulary of names, types are equal exactly if their mangled names are,
if and only if no name of the vocabulary is another one with size digits behind it. -/
theorem same_iff_mangled_eq_iff_not_numbered (hpos : 0 < top) (htop : top ≤ 9)
    (hwords : ∀ i, words i → pool.Names i) :
    (∀ t u : Ty Ident, t.Over pool top words → u.Over pool top words →
      (t.same u = true ↔ t.mangled pool.text = u.mangled pool.text)) ↔
    ∀ i j, words i → words j → ¬ Numbered top (pool.text j) (pool.text i) := by
  constructor
  · rintro h i j hi hj ⟨n, ns, hsizes, hname⟩
    have hbeside := over_numberedBeside hpos hwords hi hi hj hsizes
    have haround := over_numberedAround hpos hwords hi hi hj hsizes
    have hmangled : (numberedBeside i i j n ns).mangled pool.text =
        (numberedAround i i j n ns).mangled pool.text :=
      mangled_numberedBeside pool.text (fun k hk => (hsizes k hk).1) hname
    have hsame := (h _ _ hbeside haround).mpr hmangled
    rw [same_numberedBeside] at hsame
    cases hsame
  · intro hfree t u ht hu
    refine ⟨Ty.mangled_of_same pool.text, fun h => ?_⟩
    exact ((delimited_of_not_numbered htop hfree).same_of_mangleOnto_eq t u [] [] ⟨ht, hu⟩
      (balanced_nil _ _ _ _) (String.ofList_inj.mp h)).1

end

/-- A name that ends in a digit does no harm as long as it is no other name with
that digit behind it. -/
theorem same_iff_mangled_eq_of_one_number :
    let a := Pool.blank.intern "a"
    let b := a.2.intern "b1"
    let words : Ident → Prop := fun i => i = a.1 ∨ i = b.1
    ((0 : UInt8) < 4 ∧ (4 : UInt8) ≤ 9 ∧ ∀ i, words i → b.2.Names i) ∧
      ∀ t u : Ty Ident, t.Over b.2 4 words → u.Over b.2 4 words →
        (t.same u = true ↔ t.mangled b.2.text = u.mangled b.2.text) := by
  intro a b words
  have hgrows : a.2.Grows b.2 := Pool.grows_intern a.2 "b1"
  have ha : b.2.Names a.1 := (Pool.names_intern Pool.blank (by decide)).mono hgrows
  have hb : b.2.Names b.1 := Pool.names_intern a.2 (by decide)
  have hta : b.2.text a.1 = "a" := by
    rw [Pool.text_of_grows hgrows (Pool.issued_intern _ _), Pool.text_intern]
  have htb : b.2.text b.1 = "b1" := Pool.text_intern a.2 "b1"
  have hwords : ∀ i, words i → b.2.Names i := by
    rintro i (rfl | rfl)
    · exact ha
    · exact hb
  refine ⟨⟨by decide, by decide, hwords⟩, ?_⟩
  refine (same_iff_mangled_eq_iff_not_numbered (by decide) (by decide) hwords).mpr ?_
  rintro i j (rfl | rfl) (rfl | rfl) ⟨n, ns, _, hname⟩
  all_goals
    simp only [hta, htb] at hname
    simp at hname

/-- A struct of the empty structs `a` and `a1` is taken for one of a struct `a1` in
which the empty struct `a` stands. -/
theorem exists_mangled_eq_of_not_same :
    ∃ (pool : Pool) (x a a1 : Ident), pool.text x = "X" ∧ pool.text a = "a" ∧
      pool.text a1 = "a1" ∧ ∃ t u : Ty Ident,
        t.Over pool 4 (fun i => i = x ∨ i = a ∨ i = a1) ∧
        u.Over pool 4 (fun i => i = x ∨ i = a ∨ i = a1) ∧
        t.mangled pool.text = "struct-X-struct-a1-struct-a111" ∧
        u.mangled pool.text = "struct-X-struct-a1-struct-a111" ∧ t.same u = false := by
  let x := Pool.blank.intern "X"
  let a := x.2.intern "a"
  let a1 := a.2.intern "a1"
  have hgrowsA : a.2.Grows a1.2 := Pool.grows_intern a.2 "a1"
  have hgrowsX : x.2.Grows a1.2 := (Pool.grows_intern x.2 "a").trans hgrowsA
  have htx : a1.2.text x.1 = "X" := by
    rw [Pool.text_of_grows hgrowsX (Pool.issued_intern _ _), Pool.text_intern]
  have hta : a1.2.text a.1 = "a" := by
    rw [Pool.text_of_grows hgrowsA (Pool.issued_intern _ _), Pool.text_intern]
  have hta1 : a1.2.text a1.1 = "a1" := Pool.text_intern a.2 "a1"
  have hwords : ∀ i, (i = x.1 ∨ i = a.1 ∨ i = a1.1) → a1.2.Names i := by
    rintro i (rfl | rfl | rfl)
    · exact (Pool.names_intern Pool.blank (by decide)).mono hgrowsX
    · exact (Pool.names_intern x.2 (by decide)).mono hgrowsA
    · exact Pool.names_intern a.2 (by decide)
  have hsizes : ∀ k ∈ [(1 : UInt8)], 0 < k ∧ k ≤ 4 :=
    List.forall_mem_singleton.mpr ⟨by decide, by decide⟩
  have hmangled : (numberedBeside x.1 a.1 a1.1 1 []).mangled a1.2.text =
      "struct-X-struct-a1-struct-a111" := by
    simp only [numberedBeside, nest, rung, List.foldl_nil, List.map_cons, List.map_nil, Ty.mangled,
      Ty.mangledChars, Ty.mangleOnto, Base.mangleOnto, Definition.mangleOnto, mangleFieldsOnto,
      htx, hta, hta1]
    decide +kernel
  have hequal : (numberedBeside x.1 a.1 a1.1 1 []).mangled a1.2.text =
      (numberedAround x.1 a.1 a1.1 1 []).mangled a1.2.text :=
    mangled_numberedBeside a1.2.text (fun k hk => (hsizes k hk).1) (by rw [hta, hta1]; decide)
  exact ⟨a1.2, x.1, a.1, a1.1, htx, hta, hta1, numberedBeside x.1 a.1 a1.1 1 [],
    numberedAround x.1 a.1 a1.1 1 [],
    over_numberedBeside (by decide) hwords (.inl rfl) (.inr (.inl rfl)) (.inr (.inr rfl)) hsizes,
    over_numberedAround (by decide) hwords (.inl rfl) (.inr (.inl rfl)) (.inr (.inr rfl)) hsizes,
    hmangled, hequal ▸ hmangled, same_numberedBeside _ _ _ _ _⟩

end ShaderScope
