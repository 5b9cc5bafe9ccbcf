import ShaderScope.Proofs.Lookups
import ShaderScope.Proofs.Replies

/-!
# Overload resolution

A call is resolved by a signature that is made from its arguments and looked for
in the pool. Where every key stands for what its symbol has to stand for, this
finds the function with equal parameter types and never misses one.
-/

namespace ShaderScope

/-- A level has the symbol, which is a function of this name that takes arguments
of these types. -/
def Table.Offers (table : Table) (level : Nat) (name : Ident) (args : List (Ty Ident))
    (s : Symbol Ident) : Prop :=
  table.levels.Holds level s ∧ s.name = name ∧ ∃ f, s.declaration = .func f ∧
    List.Forall₂ (fun t u => t.same u = true) f.paramTypes args

section

variable {ν : Type}

theorem Symbol.paramTypes?_eq_some_iff {s : Symbol ν} {types : List (Ty ν)} :
    s.paramTypes? = some types ↔ ∃ f, s.declaration = .func f ∧ f.paramTypes = types := by
  unfold paramTypes?
  cases s.declaration with
  | func f => simp [Declaration.paramTypes?]
  | var v => simp [Declaration.paramTypes?]
  | typeName d => simp [Declaration.paramTypes?]

theorem Symbol.paramTypes?_eq_none_iff {s : Symbol ν} :
    s.paramTypes? = none ↔ s.isFunction = false := by
  unfold paramTypes? isFunction
  cases s.declaration with
  | func f => simp [Declaration.paramTypes?, Declaration.isFunction]
  | var v => simp [Declaration.paramTypes?, Declaration.isFunction]
  | typeName d => simp [Declaration.paramTypes?, Declaration.isFunction]

end

/-- A signature is no name. -/
theorem not_isWord_signature (text : Ident → String) (name : String) (args : List (Ty Ident)) :
    ¬ IsWord (signature text name args) := by
  intro h
  have hopen : '(' ∈ (signature text name args).toList := by
    rw [signature, String.toList_ofList]
    simp
  exact absurd (h _ hopen) (by decide)

namespace Table

variable {table : Table} {name : Ident} {args : List (Ty Ident)} {version : Version}

/-- A function that is offered stands under the signature of the call. -/
theorem at?_of_offers (h : Keyed table.pool table.levels) {level : Nat} {s : Symbol Ident}
    (hoffers : table.Offers level name args s) :
    ∃ key, table.levels.at? level key = some s ∧ table.pool.text? key =
      some (signature table.pool.text (table.pool.text name) args) := by
  obtain ⟨hholds, rfl, f, hf, hsame⟩ := hoffers
  obtain ⟨key, hat⟩ := Levels.holds_iff.mp hholds
  have htypes := Symbol.paramTypes?_eq_some_iff.mpr ⟨f, hf, rfl⟩
  have htext := (h level key s hat).2
  rw [Symbol.keyText_of_some htypes, signature_of_same _ _ hsame] at htext
  exact ⟨key, hat, htext⟩

/-- Under the signature of a call stands exactly what the level offers for it. -/
theorem offers_iff_at? (h : Keyed table.pool table.levels) (hname : table.pool.Names name)
    (hargs : ∀ t ∈ args, t.Complete table.pool) {key : Ident}
    (hkey : table.pool.text? key = some (signature table.pool.text (table.pool.text name) args))
    (level : Nat) (s : Symbol Ident) :
    table.Offers level name args s ↔ table.levels.at? level key = some s := by
  constructor
  · intro hoffers
    obtain ⟨k, hat, htext⟩ := at?_of_offers h hoffers
    have hident := (table.pool.ident?_iff _ _).mpr hkey
    rw [(table.pool.ident?_iff _ _).mpr htext] at hident
    cases hident
    exact hat
  · intro hat
    obtain ⟨hproper, htext⟩ := h level key s hat
    rw [hkey] at htext
    have hsignature := Option.some.inj htext
    cases htypes : s.paramTypes? with
    | none =>
        -- A symbol that is no function would have a word for its key.
        rw [Symbol.keyText_of_none htypes] at hsignature
        exact absurd (hsignature ▸ hproper.named.isWord) (not_isWord_signature _ _ _)
    | some types =>
        rw [Symbol.keyText_of_some htypes] at hsignature
        obtain ⟨hnames, hsame⟩ := signature_inj_of_complete hproper.named.isWord hname.isWord
          (hproper.complete types htypes) hargs hsignature.symm
        obtain ⟨f, hf, rfl⟩ := Symbol.paramTypes?_eq_some_iff.mp htypes
        exact ⟨Levels.holds_iff.mpr ⟨key, hat⟩,
          Pool.text_inj hproper.named.issued hname.issued hnames, f, hf, hsame⟩

/-- The pool knows the signature of a function that is offered. -/
theorem exists_ident?_of_offers (h : Keyed table.pool table.levels) {level : Nat}
    {s : Symbol Ident} (hoffers : table.Offers level name args s) :
    ∃ key,
      table.pool.ident? (signature table.pool.text (table.pool.text name) args) = some key := by
  obtain ⟨key, _, htext⟩ := at?_of_offers h hoffers
  exact ⟨key, (table.pool.ident?_iff _ _).mpr htext⟩

theorem findFunction?_of_ident? {key : Ident}
    (h : table.pool.ident? (signature table.pool.text (table.pool.text name) args) = some key) :
    table.findFunction? name args version = table.find? key version := by
  unfold findFunction?
  rw [h]
  rfl

/-- A call resolves exactly if some level that a lookup for the version visits
offers a function for it. -/
theorem isSome_findFunction?_iff (h : Keyed table.pool table.levels)
    (hname : table.pool.Names name) (hargs : ∀ t ∈ args, t.Complete table.pool) :
    (table.findFunction? name args version).isSome ↔
      ∃ level s, level ∈ eligibleLevels version table.current ∧
        table.Offers level name args s := by
  constructor
  · intro hsome
    obtain ⟨hit, hhit⟩ := Option.isSome_iff_exists.mp hsome
    obtain ⟨key, hident, hfind⟩ := Option.bind_eq_some_iff.mp hhit
    have hkey := (table.pool.ident?_iff _ _).mp hident
    obtain ⟨hlevel, hat, _⟩ := Levels.find?_eq_some_iff.mp (find?_eq_some_iff.mp hfind).1
    exact ⟨hit.level, hit.symbol, hlevel, (offers_iff_at? h hname hargs hkey _ _).mpr hat⟩
  · rintro ⟨level, s, hlevel, hoffers⟩
    obtain ⟨key, hident⟩ := exists_ident?_of_offers h hoffers
    have hkey := (table.pool.ident?_iff _ _).mp hident
    have hat := (offers_iff_at? h hname hargs hkey _ _).mp hoffers
    rw [findFunction?_of_ident? hident]
    cases hfind : table.find? key version with
    | some hit => rfl
    | none =>
        have hnone := Levels.find?_eq_none_iff.mp (Option.map_eq_none_iff.mp hfind) level hlevel
        rw [hat] at hnone
        cases hnone

/-- What a call resolves to is the only function that its level offers for it, and
no greater level that a lookup for the version visits offers one. -/
theorem offers_of_findFunction? (h : Keyed table.pool table.levels)
    (hname : table.pool.Names name) (hargs : ∀ t ∈ args, t.Complete table.pool) {hit : Hit}
    (hhit : table.findFunction? name args version = some hit) :
    hit.level ∈ eligibleLevels version table.current ∧
      table.Offers hit.level name args hit.symbol ∧
      (∀ s, table.Offers hit.level name args s → s = hit.symbol) ∧
      ∀ level s, level ∈ eligibleLevels version table.current →
        table.Offers level name args s → level ≤ hit.level := by
  obtain ⟨key, hident, hfind⟩ := Option.bind_eq_some_iff.mp hhit
  have hkey := (table.pool.ident?_iff _ _).mp hident
  have hoffers := offers_iff_at? h hname hargs hkey
  obtain ⟨hlevel, hat, habove⟩ := Levels.find?_eq_some_iff.mp (find?_eq_some_iff.mp hfind).1
  refine ⟨hlevel, (hoffers _ _).mpr hat, ?_, ?_⟩
  · intro s hs
    have hsame := (hoffers _ _).mp hs
    rw [hat] at hsame
    exact (Option.some.inj hsame).symm
  · intro level s hvisited hs
    apply Nat.le_of_not_lt
    intro hlt
    have hnone := habove level hvisited hlt
    rw [(hoffers _ _).mp hs] at hnone
    cases hnone

end Table

/-- Overload resolution is exact. After a run from a fresh table that declares
words with parameters that can be read back, a call resolves exactly if a level
that its version sees offers a function for it, and then to the only one that the
greatest such level offers. The pool knows the signature of every function that is
offered. -/
theorem findFunction?_after_eq_greatest_overload {pool : Pool} {actions : List (Action Ident)}
    (hrun : (Table.ofPool pool).ProperRun actions) {name : Ident} {args : List (Ty Ident)}
    (hname : ((Table.ofPool pool).after actions).pool.Names name)
    (hargs : ∀ t ∈ args, t.Complete ((Table.ofPool pool).after actions).pool)
    (version : Version) :
    let table := (Table.ofPool pool).after actions
    ((table.findFunction? name args version).isSome ↔
      ∃ level s, level ≤ table.current ∧ version.Sees level ∧ table.Offers level name args s) ∧
    (∀ hit, table.findFunction? name args version = some hit →
      hit.level ≤ table.current ∧ version.Sees hit.level ∧
      table.Offers hit.level name args hit.symbol ∧
      (∀ s, table.Offers hit.level name args s → s = hit.symbol) ∧
      ∀ level s, level ≤ table.current → version.Sees level →
        table.Offers level name args s → level ≤ hit.level) ∧
    (∀ level s, table.Offers level name args s →
      ∃ key, table.pool.ident? (signature table.pool.text (table.pool.text name) args) =
        some key) := by
  intro table
  have hkeyed : Keyed table.pool table.levels := Table.keyed_after (Levels.EveryStored.fresh _) hrun
  have hvisited : ∀ level, level ∈ eligibleLevels version table.current ↔
      level ≤ table.current ∧ version.Sees level := by
    intro level
    rw [mem_eligibleLevels, version.sees_iff_eligible]
  refine ⟨?_, ?_, fun level s hs => Table.exists_ident?_of_offers hkeyed hs⟩
  · rw [Table.isSome_findFunction?_iff hkeyed hname hargs]
    simp only [hvisited, and_assoc]
  · intro hit hhit
    obtain ⟨hlevel, hoffers, honly, hgreatest⟩ :=
      Table.offers_of_findFunction? hkeyed hname hargs hhit
    obtain ⟨hle, hsees⟩ := (hvisited hit.level).mp hlevel
    refine ⟨hle, hsees, hoffers, honly, ?_⟩
    intro level s hlevel' hsees' hs
    exact hgreatest level s ((hvisited level).mpr ⟨hlevel', hsees'⟩) hs

/-- A call is resolved to the overload of its types: in the scope that declares one and so
hides that of the common tier, and in the tier where no scope declares one. -/
theorem overloads_found_in_scope_and_tier :
    let f := Pool.blank.intern "f"
    let float : Ty Ident := Ty.scalar .float
    let int : Ty Ident := Ty.scalar .int
    let actions := [Action.openScope, .declare f.1 (.prototype float [float]),
      .builtinFunction .common (Ty.scalar .void) "f" [float],
      .builtinFunction .common (Ty.scalar .void) "f" [int]]
    let table := (Table.ofPool f.2).after actions
    ((Table.ofPool f.2).ProperRun actions ∧ table.pool.Names f.1 ∧
      ∀ t ∈ [float, int], t.Complete table.pool) ∧
      (∃ hit, table.findFunction? f.1 [float] .essl100 = some hit ∧ hit.level = 3 ∧
        table.Offers 3 f.1 [float] hit.symbol) ∧
      ∃ hit, table.findFunction? f.1 [int] .essl100 = some hit ∧ hit.level = 0 ∧
        table.Offers 0 f.1 [int] hit.symbol := by
  intro f float int actions table
  have hfloat : ∀ pool, float.Complete pool := fun _ =>
    Ty.complete_of_plain rfl (by decide) (by decide) (by decide)
  have hint : ∀ pool, int.Complete pool := fun _ =>
    Ty.complete_of_plain rfl (by decide) (by decide) (by decide)
  have hproper : ∀ (result t : Ty Ident) pool, t.Complete pool →
      (Declaration.prototype result [t]).Proper pool := by
    intro result t pool ht types htypes
    cases htypes
    exact List.forall_mem_singleton.mpr ht
  have hstart : f.2.Names f.1 := Pool.names_intern Pool.blank (by decide)
  have hrun : (Table.ofPool f.2).ProperRun actions :=
    ⟨trivial, ⟨hstart, hproper _ _ _ (hfloat _)⟩, ⟨by decide, hproper _ _ _ (hfloat _)⟩,
      ⟨by decide, hproper _ _ _ (hint _)⟩, trivial⟩
  have hname : table.pool.Names f.1 := hstart.mono ((Table.ofPool f.2).grows_after actions)
  -- The same run over strings tells at which levels the calls are resolved.
  let texts : List (Action String) :=
    [.openScope, .declare "f" (.prototype (Ty.scalar .float) [Ty.scalar .float]),
      .builtinFunction .common (Ty.scalar .void) "f" [Ty.scalar .float],
      .builtinFunction .common (Ty.scalar .void) "f" [Ty.scalar .int]]
  let text := texts.foldl (fun text action => (text.perform action).2) TextTable.fresh
  have hlevels :
      (text.levels.find? text.current .essl100 (signature id "f" [Ty.scalar .float])).map
        Prod.fst = some 3 ∧
      (text.levels.find? text.current .essl100 (signature id "f" [Ty.scalar .int])).map
        Prod.fst = some 0 := by
    decide
  have hresolves : f.2.Resolves (fun _ => f.1) ["f"] :=
    List.forall_mem_singleton.mpr (Pool.text?_intern_self Pool.blank "f")
  have hactions : texts.map (Action.map fun _ => f.1) = actions := rfl
  have hnames : texts.flatMap Action.names = ["f"] := rfl
  have hreads : table.ReadsAs text := by
    have hafter := (Table.ReadsAs.ofPool f.2).after texts (hnames.symm ▸ hresolves)
    rw [hactions] at hafter
    exact hafter
  have hcall : ∀ (t : Ty String) (level : Nat), t.names = [] →
      (t.map fun _ => f.1).Complete table.pool →
      (text.levels.find? text.current .essl100 (signature id "f" [t])).map Prod.fst = some level →
      ∃ hit, table.findFunction? f.1 [t.map fun _ => f.1] .essl100 = some hit ∧
        hit.level = level ∧ table.Offers level f.1 [t.map fun _ => f.1] hit.symbol := by
    intro t level ht hcomplete hlevel
    have hnames : table.pool.Resolves (fun _ => f.1) ("f" :: [t].flatMap Ty.names) := by
      rw [List.flatMap_singleton, ht]
      exact fun n hn => (Table.ofPool f.2).grows_after actions _ _ (hresolves n hn)
    rw [← hreads.level_findFunction? hnames] at hlevel
    obtain ⟨hit, hhit, rfl⟩ := Option.map_eq_some_iff.mp hlevel
    obtain ⟨-, hfound, -⟩ := findFunction?_after_eq_greatest_overload hrun hname
      (List.forall_mem_singleton.mpr hcomplete) .essl100
    exact ⟨hit, hhit, rfl, (hfound hit hhit).2.2.1⟩
  refine ⟨⟨hrun, hname, ?_⟩, hcall (Ty.scalar .float) 3 rfl (hfloat _) hlevels.1,
    hcall (Ty.scalar .int) 0 rfl (hint _) hlevels.2⟩
  exact List.forall_mem_cons.mpr ⟨hfloat _, List.forall_mem_singleton.mpr (hint _)⟩

end ShaderScope
