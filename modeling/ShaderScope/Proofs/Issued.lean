import ShaderScope.Name.Pool

/-!
# Issued identifiers

An identifier is issued once a pool has stored its string. On issued identifiers
the strings tell identifiers apart, and a pool that has grown keeps the string of
every identifier that it issued before.
-/

namespace ShaderScope

/-- A character that names in a shader are made of. -/
def isWordChar (c : Char) : Bool :=
  c.isAlphanum || c == '_'

/-- Made of letters, digits and underscores only. -/
def IsWord (s : String) : Prop :=
  ∀ c ∈ s.toList, isWordChar c = true

instance (s : String) : Decidable (IsWord s) :=
  decidable_of_iff (s.toList.all isWordChar = true) List.all_eq_true

namespace Pool

/-- The pool has stored a string under the identifier. -/
def Issued (pool : Pool) (i : Ident) : Prop :=
  ∃ s, pool.text? i = some s

/-- The identifier stands for a string of letters, digits and underscores. -/
def Names (pool : Pool) (i : Ident) : Prop :=
  ∃ s, pool.text? i = some s ∧ IsWord s

theorem Names.issued {pool : Pool} {i : Ident} (h : pool.Names i) : pool.Issued i := by
  obtain ⟨s, hs, _⟩ := h
  exact ⟨s, hs⟩

theorem text_of_text? {pool : Pool} {i : Ident} {s : String} (h : pool.text? i = some s) :
    pool.text i = s := by
  rw [text, h, Option.getD_some]

theorem Names.isWord {pool : Pool} {i : Ident} (h : pool.Names i) : IsWord (pool.text i) := by
  obtain ⟨s, hs, hword⟩ := h
  rw [text_of_text? hs]
  exact hword

theorem text?_of_issued {pool : Pool} {i : Ident} (h : pool.Issued i) :
    pool.text? i = some (pool.text i) := by
  obtain ⟨s, hs⟩ := h
  rw [text_of_text? hs]
  exact hs

/-- No string is stored twice. -/
theorem text_inj {pool : Pool} {i j : Ident} (hi : pool.Issued i) (hj : pool.Issued j)
    (h : pool.text i = pool.text j) : i = j := by
  have hfound := (pool.ident?_iff _ _).mpr (text?_of_issued hi)
  rw [h, (pool.ident?_iff _ _).mpr (text?_of_issued hj)] at hfound
  exact (Option.some.inj hfound).symm

/-- Identifiers are equal exactly if their strings are. -/
theorem eq_iff_of_text? {pool : Pool} {i j : Ident} {s t : String} (hi : pool.text? i = some s)
    (hj : pool.text? j = some t) : i = j ↔ s = t := by
  constructor
  · rintro rfl
    exact Option.some.inj (hi.symm.trans hj)
  · rintro rfl
    exact text_inj ⟨s, hi⟩ ⟨s, hj⟩ ((text_of_text? hi).trans (text_of_text? hj).symm)

/-- Every identifier of the first pool stands for the same string in the second. -/
def Grows (pool grown : Pool) : Prop :=
  ∀ i s, pool.text? i = some s → grown.text? i = some s

theorem Grows.refl (pool : Pool) : pool.Grows pool :=
  fun _ _ h => h

theorem Grows.trans {p q r : Pool} (hpq : p.Grows q) (hqr : q.Grows r) : p.Grows r :=
  fun i s h => hqr i s (hpq i s h)

theorem grows_intern (pool : Pool) (s : String) : pool.Grows (pool.intern s).2 :=
  fun _ _ h => text?_intern_of_text? s h

theorem grows_internAll (pool : Pool) (strings : List String) :
    pool.Grows (pool.internAll strings).2 := by
  induction strings generalizing pool with
  | nil => exact Grows.refl pool
  | cons s rest ih => exact (pool.grows_intern s).trans (ih (pool.intern s).2)

theorem grows_internAll_cons (pool : Pool) (s : String) (rest : List String) :
    (pool.intern s).2.Grows (pool.internAll (s :: rest)).2 :=
  grows_internAll (pool.intern s).2 rest

theorem issued_intern (pool : Pool) (s : String) :
    (pool.intern s).2.Issued (pool.intern s).1 :=
  ⟨s, text?_intern_self pool s⟩

theorem text_intern (pool : Pool) (s : String) :
    (pool.intern s).2.text (pool.intern s).1 = s :=
  text_of_text? (text?_intern_self pool s)

theorem names_intern (pool : Pool) {s : String} (h : IsWord s) :
    (pool.intern s).2.Names (pool.intern s).1 :=
  ⟨s, text?_intern_self pool s, h⟩

/-- A stored string keeps its identifier. -/
theorem intern_of_text? {pool : Pool} {i : Ident} {s : String} (h : pool.text? i = some s) :
    pool.intern s = (i, pool) :=
  intern_of_ident? ((pool.ident?_iff s i).mpr h)

theorem Issued.mono {p q : Pool} (h : p.Grows q) {i : Ident} (hi : p.Issued i) : q.Issued i := by
  obtain ⟨s, hs⟩ := hi
  exact ⟨s, h i s hs⟩

theorem Names.mono {p q : Pool} (h : p.Grows q) {i : Ident} (hi : p.Names i) : q.Names i := by
  obtain ⟨s, hs, hword⟩ := hi
  exact ⟨s, h i s hs, hword⟩

theorem text_of_grows {p q : Pool} (h : p.Grows q) {i : Ident} (hi : p.Issued i) :
    q.text i = p.text i :=
  text_of_text? (h i _ (text?_of_issued hi))

/-- The reading gives every issued identifier its string. -/
def ReadBy (pool : Pool) (read : Ident → String) : Prop :=
  ∀ i s, pool.text? i = some s → read i = s

theorem readBy_text (pool : Pool) : pool.ReadBy pool.text :=
  fun _ _ => text_of_text?

/-- What reads a pool also reads the pools that it has grown from. -/
theorem ReadBy.of_grows {p q : Pool} {read : Ident → String} (h : q.ReadBy read)
    (hgrows : p.Grows q) : p.ReadBy read :=
  fun i s hi => h i s (hgrows i s hi)

end Pool

end ShaderScope
