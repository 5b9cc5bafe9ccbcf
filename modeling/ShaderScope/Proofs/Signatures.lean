import ShaderScope.Proofs.Decoding
import ShaderScope.Proofs.EqualTypes

/-!
# Signatures

Where every definition has fields, a signature tells the name of its function and
the types of the parameters up to equality. The mangled names of the parameters
stand one behind the other without a separator. They are read back one by one,
because no mangled name starts with what could continue the one in front of it.
-/

namespace ShaderScope

variable {ν : Type}

/-! ## Equal types are encoded alike -/

section

variable [DecidableEq ν]

theorem mangledList_of_same (text : ν → String) {ts us : List (Ty ν)}
    (h : List.Forall₂ (fun t u => t.same u = true) ts us) :
    mangledList text ts = mangledList text us := by
  induction h with
  | nil => rfl
  | cons hsame _ ih =>
      simp only [mangledList, List.flatMap_cons] at ih ⊢
      rw [ih, Ty.mangledChars, Ty.mangledChars, Ty.mangleOnto_of_same text hsame]

/-- Functions of one name and of equal parameter types have one signature. -/
theorem signature_of_same (text : ν → String) (name : String) {ts us : List (Ty ν)}
    (h : List.Forall₂ (fun t u => t.same u = true) ts us) :
    signature text name ts = signature text name us := by
  rw [signature, signature, mangledList_of_same text h]

end

/-! ## Types that can be read back -/

namespace Ty

/-- Well formed, with sizes of one digit, and with fields in every definition. -/
def Complete (pool : Pool) (t : Ty Ident) : Prop :=
  t.WellFormed pool 9 ∧ t.Filled

theorem Complete.mono_pool {p q : Pool} (h : p.Grows q) {t : Ty Ident} (ht : t.Complete p) :
    t.Complete q :=
  ⟨ht.1.mono_pool h, ht.2⟩

theorem Complete.field {pool : Pool} {t : Ty Ident} (ht : t.Complete pool) {d : Definition Ident}
    (hd : t.base = .defined d) {f : Field Ident} (hf : f ∈ d.fields) : f.type.Complete pool :=
  ⟨ht.1.field (definition?_of_base hd) hf, ht.2.field (definition?_of_base hd) hf⟩

theorem complete_of_plain {pool : Pool} {t : Ty Ident} {k : Kind} (hbase : t.base = .plain k)
    (hk : k.isAggregate = false) (hrows : t.shape.rows ≤ 9) (hcolumns : t.shape.columns ≤ 9) :
    t.Complete pool := by
  refine ⟨everywhere_of_plain hbase (sound_of_plain hbase hk hrows hcolumns),
    everywhere_of_plain hbase ?_⟩
  intro d hd
  rw [definition?_of_plain hbase] at hd
  cases hd

theorem complete_of_defined {pool : Pool} {t : Ty Ident} {d : Definition Ident}
    (hbase : t.base = .defined d) (hname : pool.Names d.name) (hrows : t.shape.rows ≤ 9)
    (hcolumns : t.shape.columns ≤ 9) (hne : d.fields ≠ [])
    (hfields : ∀ f ∈ d.fields, f.type.Complete pool) : t.Complete pool := by
  refine ⟨everywhere_of_defined hbase (sound_of_defined hbase hname hrows hcolumns)
    (fun f hf => (hfields f hf).1), everywhere_of_defined hbase ?_ (fun f hf => (hfields f hf).2)⟩
  intro e he
  rw [definition?_of_base hbase] at he
  cases he
  exact hne

/-- A mangled name starts with a letter or a digit. -/
theorem Sound.head?_mangleOnto {pool : Pool} {t : Ty Ident} (h : t.Sound pool 9)
    (text : Ident → String) (rest : List Char) :
    ∃ c, (t.mangleOnto text rest).head? = some c ∧ isWordChar c = true := by
  have hopening : ∀ k ∈ Kind.all, k.opening.head?.all isWordChar = true := by decide +kernel
  have hdigit : sizeDigits.all isWordChar = true := by decide
  rw [h.mangleOnto_eq]
  rcases t.shape.mark_cases with hmark | hmark | hmark
  · exact ⟨'m', by rw [hmark]; rfl, by decide⟩
  · exact ⟨'v', by rw [hmark]; rfl, by decide⟩
  · rw [hmark, List.nil_append]
    cases hopen : t.kind.opening with
    | nil =>
        have hkind := Kind.not_isAggregate_of_opening_eq_nil t.kind (Kind.mem_all _) hopen
        obtain ⟨c, hc, hhead⟩ := h.follows text rest hkind
        exact ⟨c, hhead, List.all_eq_true.mp hdigit c hc⟩
    | cons c cs =>
        have hword := hopening t.kind (Kind.mem_all _)
        rw [hopen] at hword
        exact ⟨c, rfl, hword⟩

end Ty

/-- Where every definition has fields, the hyphen in front of the first one ends
the name of the definition. -/
theorem delimited_of_complete (pool : Pool) :
    Delimited pool (fun t u => t.Complete pool ∧ u.Complete pool)
      (fun r s => r.head? ≠ some '[' ∧ s.head? ≠ some '[') where
  sound := fun h => ⟨h.1.1.self, h.2.1.self⟩
  field := fun h hd he hf hg => ⟨h.1.field hd hf, h.2.field he hg⟩
  no_bracket := fun h => h
  inner := by
    intro t u d e r s fs gs hpair _ _ _ _ _ _
    exact ⟨hpair.1.1.self.head?_mangleFieldsOnto_ne _ _ _,
      hpair.2.1.self.head?_mangleFieldsOnto_ne _ _ _⟩
  name := by
    intro t u d e r s hpair _ _ hd he hinside
    have hstop : ∀ {v : Ty Ident} {x : List Char} {b : Definition Ident}, v.Complete pool →
        v.base = .defined b →
        ∀ c ∈ (mangleFieldsOnto pool.text b.fields (v.closing x)).head?, isWordChar c = false := by
      intro v x b hv hb c hc
      have hfields := hv.2.self b (Ty.definition?_of_base hb)
      rw [head?_mangleFieldsOnto, if_neg hfields] at hc
      cases hc
      decide
    have hword : ∀ {v : Ty Ident} {b : Definition Ident}, v.Complete pool → v.base = .defined b →
        IsWord (pool.text b.name) := fun hv hb =>
      (hv.1.self.named _ (Ty.definition?_of_base hb)).isWord
    rw [hd, he] at hinside
    obtain ⟨hname, _⟩ := append_inj_of_stops (hword hpair.1 hd) (hword hpair.2 he)
      (hstop hpair.1 hd) (hstop hpair.2 he) hinside
    exact String.toList_inj.mp hname

/-! ## Parameter lists -/

theorem mangledList_cons_append (text : ν → String) (t : Ty ν) (ts : List (Ty ν))
    (rest : List Char) :
    mangledList text (t :: ts) ++ rest = t.mangleOnto text (mangledList text ts ++ rest) := by
  calc
    mangledList text (t :: ts) ++ rest
        = t.mangledChars text ++ mangledList text ts ++ rest := by
          rw [mangledList, List.flatMap_cons]
          rfl
    _ = t.mangledChars text ++ (mangledList text ts ++ rest) := List.append_assoc _ _ _
    _ = t.mangleOnto text (mangledList text ts ++ rest) := (Ty.mangleOnto_eq text t _).symm

/-- What a parameter list up to its closing parenthesis starts with. -/
theorem head?_mangledList {pool : Pool} {ts : List (Ty Ident)}
    (hts : ∀ t ∈ ts, t.Complete pool) :
    (mangledList pool.text ts ++ [')']).head? ≠ some '[' := by
  cases ts with
  | nil => simp [mangledList]
  | cons t ts =>
      have hsound := (hts t List.mem_cons_self).1.self
      obtain ⟨c, hhead, hword⟩ :=
        hsound.head?_mangleOnto pool.text (mangledList pool.text ts ++ [')'])
      rw [mangledList_cons_append, hhead]
      rintro ⟨⟩
      exact absurd hword (by decide)

/-- The parameter types are read back one by one. -/
theorem forall₂_same_of_mangledList_eq {pool : Pool} {ts us : List (Ty Ident)}
    (hts : ∀ t ∈ ts, t.Complete pool) (hus : ∀ u ∈ us, u.Complete pool)
    (h : mangledList pool.text ts ++ [')'] = mangledList pool.text us ++ [')']) :
    List.Forall₂ (fun t u => t.same u = true) ts us := by
  have hend : ∀ {v : Ty Ident} {vs : List (Ty Ident)}, v.Complete pool →
      (mangledList pool.text (v :: vs) ++ [')']).head? ≠ some ')' := by
    intro v vs hv
    obtain ⟨c, hhead, hword⟩ :=
      hv.1.self.head?_mangleOnto pool.text (mangledList pool.text vs ++ [')'])
    rw [mangledList_cons_append, hhead]
    rintro ⟨⟩
    exact absurd hword (by decide)
  induction ts generalizing us with
  | nil =>
      cases us with
      | nil => exact .nil
      | cons u us =>
          exact absurd (congrArg List.head? h).symm (hend (hus u List.mem_cons_self))
  | cons t ts ih =>
      cases us with
      | nil => exact absurd (congrArg List.head? h) (hend (hts t List.mem_cons_self))
      | cons u us =>
          have hts' : ∀ v ∈ ts, v.Complete pool := fun v hv => hts v (List.mem_cons_of_mem _ hv)
          have hus' : ∀ v ∈ us, v.Complete pool := fun v hv => hus v (List.mem_cons_of_mem _ hv)
          rw [mangledList_cons_append, mangledList_cons_append] at h
          obtain ⟨hsame, hrest⟩ := (delimited_of_complete pool).same_of_mangleOnto_eq t u _ _
            ⟨hts t List.mem_cons_self, hus u List.mem_cons_self⟩
            ⟨head?_mangledList hts', head?_mangledList hus'⟩ h
          exact .cons hsame (ih hts' hus' hrest)

/-- A signature tells the name of its function and the parameter types. -/
theorem signature_inj_of_complete {pool : Pool} {n m : String} {ts us : List (Ty Ident)}
    (hn : IsWord n) (hm : IsWord m) (hts : ∀ t ∈ ts, t.Complete pool)
    (hus : ∀ u ∈ us, u.Complete pool)
    (h : signature pool.text n ts = signature pool.text m us) :
    n = m ∧ List.Forall₂ (fun t u => t.same u = true) ts us := by
  have hstop : ∀ {x : List Char}, ∀ c ∈ ('(' :: x).head?, isWordChar c = false := by
    intro x c hc
    cases hc
    decide
  rw [signature, signature] at h
  obtain ⟨hname, hparams⟩ := append_inj_of_stops hn hm hstop hstop (String.ofList_inj.mp h)
  exact ⟨String.toList_inj.mp hname,
    forall₂_same_of_mangledList_eq hts hus (List.cons.inj hparams).2⟩

/-- Signatures are injective: they are equal exactly for one function name and for
parameter lists of one length whose types are equal in pairs. -/
theorem signature_eq_iff {pool : Pool} {n m : String} {ts us : List (Ty Ident)}
    (hn : IsWord n) (hm : IsWord m) (hts : ∀ t ∈ ts, t.Complete pool)
    (hus : ∀ u ∈ us, u.Complete pool) :
    signature pool.text n ts = signature pool.text m us ↔
      n = m ∧ List.Forall₂ (fun t u => t.same u = true) ts us := by
  constructor
  · exact signature_inj_of_complete hn hm hts hus
  · rintro ⟨rfl, hsame⟩
    exact signature_of_same pool.text n hsame

/-- The order of a struct, whose field is an unsized array of vectors, and a `void`
parameter is seen in the signature. -/
theorem signature_ne_of_swapped :
    let pool := (Pool.blank.intern "S").2
    let s : Ty Ident := Ty.ofDefinition ⟨(Pool.blank.intern "S").1, .struct,
      [⟨.empty, (Ty.vector .float 2).withArrayLength unsizedLength⟩]⟩
    let v : Ty Ident := Ty.scalar .void
    IsWord "f" ∧ (∀ t ∈ [s, v], t.Complete pool) ∧ (∀ t ∈ [v, s], t.Complete pool) ∧
      signature pool.text "f" [s, v] ≠ signature pool.text "f" [v, s] := by
  intro pool s v
  have hword : IsWord "f" := by decide
  have hv : v.Complete pool := Ty.complete_of_plain rfl (by decide) (by decide) (by decide)
  have hs : s.Complete pool := by
    refine Ty.complete_of_defined rfl (Pool.names_intern Pool.blank (by decide)) (by decide)
      (by decide) (List.cons_ne_nil _ _) ?_
    intro f hf
    rw [List.mem_singleton.mp hf]
    exact Ty.complete_of_plain rfl (by decide) (by decide) (by decide)
  have hsv : ∀ t ∈ [s, v], t.Complete pool := by simp [hs, hv]
  have hvs : ∀ t ∈ [v, s], t.Complete pool := by simp [hs, hv]
  refine ⟨hword, hsv, hvs, ?_⟩
  intro h
  obtain ⟨_, hsame⟩ := (signature_eq_iff hword hword hsv hvs).mp h
  cases hsame with
  | cons hfirst _ =>
      simp [s, v, Ty.ofDefinition, Ty.scalar, Ty.ofKind, Ty.same, Base.same] at hfirst

end ShaderScope
