import ShaderScope.Proofs.Overloads
import ShaderScope.Proofs.RecordedNames

/-!
# The names of functions

A call is looked for by its signature, and a signature shows the name in front of
its only parenthesis. The key of a function keeps that name when parameters are
added to the function later, so that a call which ends in a tier names a function
that the tier has recorded.
-/

namespace ShaderScope

/-! ## The name in front of a parenthesis -/

/-- The names of all definitions within the type are words. -/
def Ty.Worded (pool : Pool) (t : Ty Ident) : Prop :=
  t.Everywhere fun u => ∀ d, u.definition? = some d → pool.Names d.name

namespace Ty

variable {pool grown : Pool} {t : Ty Ident}

theorem Worded.mono (hgrows : pool.Grows grown) (h : t.Worded pool) : t.Worded grown :=
  Everywhere.mono (fun _ hu d hd => (hu d hd).mono hgrows) h

theorem Worded.known (h : t.Worded pool) : t.Known pool :=
  Everywhere.mono (fun _ hu d hd => (hu d hd).issued) h

theorem worded_of_plain {k : Kind} (hbase : t.base = .plain k) : t.Worded pool := by
  refine everywhere_of_plain hbase ?_
  intro d hd
  rw [definition?_of_plain hbase] at hd
  cases hd

end Ty

theorem paren_notMem_of_isWord {s : String} (h : IsWord s) : '(' ∉ s.toList :=
  fun hmem => absurd (h _ hmem) (by decide)

theorem paren_notMem_sizeChars (s : Shape) : '(' ∉ s.sizeChars := by
  have hsize : ∀ n, '(' ≠ sizeChar n := by
    intro n h
    have hcode : 40 = min (48 + n.toNat) 255 :=
      (congrArg Char.toNat h).trans (toNat_sizeChar_eq_min n)
    omega
  unfold Shape.sizeChars
  split
  · simp [hsize]
  · simp [hsize]

theorem paren_notMem_lengthChars (length : Option UInt32) : '(' ∉ lengthChars length := by
  cases length with
  | none => exact List.not_mem_nil
  | some n =>
      have hdigits : '(' ∉ Nat.toDigits 10 n.toNat := by
        intro h
        exact absurd (Nat.isDigit_of_mem_toDigits (by decide) (by decide) h) (by decide)
      simp [lengthChars, hdigits]

theorem paren_notMem_mangleFieldsOnto {text : Ident → String} {fields : List (Field Ident)}
    (h : ∀ f ∈ fields, '(' ∉ f.type.mangledChars text) :
    '(' ∉ mangleFieldsOnto text fields [] := by
  induction fields with
  | nil => exact List.not_mem_nil
  | cons f fields ih =>
      have hfirst := h f List.mem_cons_self
      have hrest := ih (fun g hg => h g (List.mem_cons_of_mem _ hg))
      obtain ⟨name, type⟩ := f
      rw [mangleFieldsOnto, Ty.mangleOnto_eq]
      simp [hfirst, hrest]

/-- Where definitions are named by words, a mangled name has no parenthesis. -/
theorem Ty.Worded.paren_notMem {pool : Pool} {t : Ty Ident} (h : t.Worded pool) :
    '(' ∉ t.mangledChars pool.text := by
  have hmark : ∀ s : Shape, '(' ∉ s.mark := by
    intro s
    rcases s.mark_cases with h | h | h <;> simp [h]
  have htag : ∀ k ∈ Kind.all, '(' ∉ k.tagChars := by decide +kernel
  have hopening : ∀ k ∈ Kind.all, '(' ∉ k.opening := by decide +kernel
  induction t using Ty.inductionOnFields with
  | step t ih =>
      have hbase : '(' ∉ t.base.mangleOnto pool.text [] := by
        cases hbase : t.base with
        | plain k => simpa [Base.mangleOnto] using htag k (Kind.mem_all k)
        | defined d =>
            have hd := definition?_of_base hbase
            have hname := paren_notMem_of_isWord (h.self d hd).isWord
            have hfields := paren_notMem_mangleFieldsOnto
              (fun f hf => ih d hd f hf (h.field hd hf))
            obtain ⟨name, form, fields⟩ := d
            have hform : '(' ∉ form.mark := by
              rw [← Kind.opening_kind]
              exact hopening _ (Kind.mem_all _)
            simpa [Base.mangleOnto, Definition.mangleOnto, hform, hfields] using hname
      rw [mangledChars_eq]
      simp [hmark, hbase, paren_notMem_sizeChars, paren_notMem_lengthChars]

/-- So a parameter list has none. -/
theorem paren_notMem_mangledList {pool : Pool} {types : List (Ty Ident)}
    (h : ∀ t ∈ types, t.Worded pool) : '(' ∉ mangledList pool.text types := by
  intro hmem
  obtain ⟨t, ht, hin⟩ := List.mem_flatMap.mp hmem
  exact (h t ht).paren_notMem hin

/-- A signature is a name, its only parenthesis and more behind that. -/
theorem name_eq_of_signature {text : Ident → String} {name head : String}
    {args : List (Ty Ident)} {rest : List Char} (hhead : '(' ∉ head.toList) (hrest : '(' ∉ rest)
    (h : String.ofList (head.toList ++ '(' :: rest) = signature text name args) : head = name := by
  rw [signature] at h
  exact String.toList_inj.mp
    ((List.append_cons_inj_of_notMem hhead hrest).mp (String.ofList_inj.mp h)).1

/-! ## Keys and the names of their functions -/

/-- All parameters of a function have such types. -/
def Declaration.Takes {ν : Type} (P : Ty ν → Prop) (d : Declaration ν) : Prop :=
  ∀ types, d.paramTypes? = some types → ∀ t ∈ types, P t

namespace Declaration

variable {ν : Type} {P Q : Ty ν → Prop} {d : Declaration ν}

theorem Takes.mono (hPQ : ∀ t, P t → Q t) (h : d.Takes P) : d.Takes Q :=
  fun types htypes t ht => hPQ t (h types htypes t ht)

theorem Takes.edit (h : d.Takes P) {e : Edit ν} (he : ∀ p, e = .pushParam p → P p.type) :
    (d.edit e).Takes P := by
  intro types htypes t ht
  cases d with
  | func f =>
      cases e with
      | pushParam p =>
          cases htypes
          rw [Function.paramTypes_pushParam] at ht
          rcases List.mem_append.mp ht with hold | hnew
          · exact h _ rfl t hold
          · rw [List.mem_singleton.mp hnew]
            exact he p rfl
      | resolveLength n => exact h types htypes t ht
      | define => exact h types htypes t ht
  | var v => cases e <;> cases htypes
  | typeName d => cases e <;> cases htypes

end Declaration

theorem Symbol.takes_editAll {ν : Type} {P : Ty ν → Prop} {s : Symbol ν}
    (h : s.declaration.Takes P) {es : List (Declaration.Edit ν)}
    (hes : ∀ p, .pushParam p ∈ es → P p.type) : (s.editAll es).declaration.Takes P := by
  induction es generalizing s with
  | nil => exact h
  | cons e es ih =>
      rw [editAll, List.foldl_cons]
      refine ih (s := s.edit e) (h.edit ?_) fun p hp => hes p (List.mem_cons_of_mem _ hp)
      rintro p rfl
      exact hes p List.mem_cons_self

/-- The key of a symbol shows its name: in front of a parenthesis for a function,
which may have got other parameters meanwhile, and some word otherwise. -/
structure HeadedBy (pool : Pool) (key : Ident) (s : Symbol Ident) : Prop where
  named : pool.Names s.name
  worded : s.declaration.Takes (Ty.Worded pool)
  of_function : s.isFunction = true → ∃ rest, '(' ∉ rest ∧
    pool.text? key = some (String.ofList ((pool.text s.name).toList ++ '(' :: rest))
  of_other : s.isFunction = false → pool.Names key

namespace HeadedBy

variable {pool grown : Pool} {key : Ident} {s : Symbol Ident}

theorem mono (hgrows : pool.Grows grown) (h : HeadedBy pool key s) : HeadedBy grown key s where
  named := h.named.mono hgrows
  worded := h.worded.mono fun _ ht => ht.mono hgrows
  of_function := by
    intro hfunction
    obtain ⟨rest, hrest, hkey⟩ := h.of_function hfunction
    rw [Pool.text_of_grows hgrows h.named.issued]
    exact ⟨rest, hrest, hgrows key _ hkey⟩
  of_other := fun hother => (h.of_other hother).mono hgrows

/-- A symbol that is stored now gets such a key. -/
theorem levelKey (hnamed : pool.Names s.name) (hworded : s.declaration.Takes (Ty.Worded pool)) :
    HeadedBy (s.levelKey pool).2 (s.levelKey pool).1 s := by
  have hgrows := s.levelKey_grows pool
  have hkey := Symbol.text?_levelKey hnamed.issued
  refine ⟨hnamed.mono hgrows, hworded.mono fun _ ht => ht.mono hgrows, ?_, ?_⟩
  · intro hfunction
    cases htypes : s.paramTypes? with
    | none => simp [Symbol.paramTypes?_eq_none_iff.mp htypes] at hfunction
    | some types =>
        have hlist := paren_notMem_mangledList (hworded types htypes)
        rw [Symbol.keyText_of_some htypes] at hkey
        rw [Pool.text_of_grows hgrows hnamed.issued]
        exact ⟨mangledList pool.text types ++ [')'], by simp [hlist], hkey⟩
  · intro hother
    rw [Symbol.keyText_of_none (Symbol.paramTypes?_eq_none_iff.mpr hother)] at hkey
    exact ⟨_, hkey, hnamed.isWord⟩

/-- Neither the name nor the key of a symbol changes in place. -/
theorem editAll (h : HeadedBy pool key s) {edits : List (Declaration.Edit Ident)}
    (hedits : ∀ p, .pushParam p ∈ edits → p.type.Worded pool) :
    HeadedBy pool key (s.editAll edits) where
  named := by
    rw [s.name_editAll]
    exact h.named
  worded := Symbol.takes_editAll h.worded hedits
  of_function := by
    rw [s.isFunction_editAll, s.name_editAll]
    exact h.of_function
  of_other := by
    rw [s.isFunction_editAll]
    exact h.of_other

/-- What stands under the signature of a call is a function of the name that the
call is made by. -/
theorem function_of_signature (h : HeadedBy pool key s) {name : Ident} {args : List (Ty Ident)}
    (hname : pool.Issued name)
    (hkey : pool.text? key = some (signature pool.text (pool.text name) args)) :
    s.isFunction = true ∧ s.name = name := by
  cases hfunction : s.isFunction with
  | false =>
      obtain ⟨word, hword, hisWord⟩ := h.of_other hfunction
      rw [hkey] at hword
      cases hword
      exact absurd hisWord (not_isWord_signature _ _ _)
  | true =>
      obtain ⟨rest, hrest, htext⟩ := h.of_function hfunction
      have hheads := htext.symm.trans hkey
      have htexts := name_eq_of_signature (paren_notMem_of_isWord h.named.isWord) hrest
        (Option.some.inj hheads)
      exact ⟨rfl, Pool.text_inj h.named.issued hname htexts⟩

end HeadedBy

/-! ## Runs that declare words -/

/-- Words are declared, and the definitions in all parameters are named by words. -/
def Action.Worded (pool : Pool) : Action Ident → Prop
  | .declare name declaration => pool.Names name ∧ declaration.Takes (Ty.Worded pool)
  | .declareBuiltin _ name declaration => IsWord name ∧ declaration.Takes (Ty.Worded pool)
  | .edit _ edits => ∀ p, .pushParam p ∈ edits → p.type.Worded pool
  | _ => True

/-- Every action of a run declares words. -/
def Table.WordedRun (table : Table) : List (Action Ident) → Prop
  | [] => True
  | action :: rest => action.Worded table.pool ∧ (table.perform action).2.WordedRun rest

namespace Table

variable {table after : Table} {action : Action Ident}

theorem headedBy_of_attempt? (h : table.levels.EveryStored (HeadedBy table.pool))
    (haction : action.Worded table.pool) {attempt : Attempt table}
    (hattempt : table.attempt? action = some attempt) :
    HeadedBy attempt.keyed attempt.key attempt.symbol := by
  cases action with
  | declare name declaration =>
      cases hattempt
      exact HeadedBy.levelKey haction.1 haction.2
  | rebind key version =>
      obtain ⟨hit, hfind, rfl⟩ := Option.map_eq_some_iff.mp hattempt
      obtain ⟨found, hfound, rfl⟩ := Option.map_eq_some_iff.mp hfind
      obtain ⟨_, hat, _⟩ := Levels.find?_eq_some_iff.mp hfound
      have hheaded := h _ _ _ hat
      exact HeadedBy.levelKey hheaded.named hheaded.worded
  | declareBuiltin tier name declaration =>
      cases hattempt
      exact HeadedBy.levelKey (Pool.names_intern table.pool haction.1)
        (haction.2.mono fun _ ht => ht.mono (Pool.grows_intern table.pool name))
  | _ => cases hattempt

theorem headedBy_of_effect {outcome : Outcome Ident}
    (h : table.levels.EveryStored (HeadedBy table.pool)) (haction : action.Worded table.pool)
    (heffect : table.Effect action outcome after) :
    after.levels.EveryStored (HeadedBy after.pool) := by
  refine everyStored_of_effect (fun hgrows hheaded => hheaded.mono hgrows) h heffect ?_ ?_
  · intro attempt hattempt
    exact headedBy_of_attempt? h haction hattempt
  · rintro key edits s rfl _ hheaded
    exact hheaded.editAll haction

theorem headedBy_after {actions : List (Action Ident)}
    (h : table.levels.EveryStored (HeadedBy table.pool)) (hrun : table.WordedRun actions) :
    (table.after actions).levels.EveryStored (HeadedBy (table.after actions).pool) := by
  induction actions generalizing table with
  | nil => exact h
  | cons action rest ih =>
      rw [after_cons]
      exact ih (headedBy_of_effect h hrun.1 (table.effect_perform action)) hrun.2

/-- A call that ends in a tier names a function that the tier has recorded. -/
theorem hasBuiltinFunction_of_findFunction?
    (hheaded : table.levels.EveryStored (HeadedBy table.pool))
    (hrecords : table.levels.RecordFunctions) {name : Ident} (hname : table.pool.Issued name)
    {args : List (Ty Ident)} {version : Version} {hit : Hit}
    (hhit : table.findFunction? name args version = some hit) (hbuiltin : hit.isBuiltin = true) :
    table.hasBuiltinFunction name version = true := by
  obtain ⟨key, hident, hfind⟩ := Option.bind_eq_some_iff.mp hhit
  have hkey := (table.pool.ident?_iff _ _).mp hident
  obtain ⟨hfound, hlevel, _⟩ := find?_eq_some_iff.mp hfind
  obtain ⟨hvisited, hat, _⟩ := Levels.find?_eq_some_iff.mp hfound
  rw [hbuiltin] at hlevel
  have htier : hit.level ≤ lastTierLevel := of_decide_eq_true hlevel.symm
  have hsees : version.Sees hit.level := (mem_eligibleLevels_iff_sees.mp hvisited).2
  obtain ⟨hfunction, hsame⟩ := (hheaded _ _ _ hat).function_of_signature hname hkey
  exact (hasBuiltinFunction_iff hrecords name version).mpr
    ⟨hit.level, htier, hsees, hit.symbol, Levels.holds_iff.mpr ⟨key, hat⟩, hfunction, hsame⟩

end Table

/-- The recorded names of functions are exact. After any run from a fresh table, a
name is recorded at a level exactly if the level holds a function of that name, and
a built-in function is visible exactly if a tier that its version sees holds one.
Where names and definitions are words, a call that resolves to a built-in names a
built-in function that is visible. -/
theorem function_names_exact (pool : Pool) (actions : List (Action Ident)) :
    let table := (Table.ofPool pool).after actions
    (∀ level name, table.levels.hasFunctionAt level name = true ↔
      ∃ s, table.levels.Holds level s ∧ s.isFunction = true ∧ s.name = name) ∧
    (∀ name version, table.hasBuiltinFunction name version = true ↔
      ∃ level ≤ lastTierLevel, version.Sees level ∧
        ∃ s, table.levels.Holds level s ∧ s.isFunction = true ∧ s.name = name) ∧
    ((Table.ofPool pool).WordedRun actions → ∀ name args version hit,
      table.pool.Issued name → table.findFunction? name args version = some hit →
        hit.isBuiltin = true → table.hasBuiltinFunction name version = true) := by
  intro table
  have hrecords : table.levels.RecordFunctions :=
    Table.recordFunctions_after Levels.recordFunctions_fresh
  refine ⟨hrecords.hasFunctionAt_iff, Table.hasBuiltinFunction_iff hrecords, ?_⟩
  intro hrun name args version hit hname hhit hbuiltin
  have hheaded : table.levels.EveryStored (HeadedBy table.pool) :=
    Table.headedBy_after (Levels.EveryStored.fresh _) hrun
  exact Table.hasBuiltinFunction_of_findFunction? hheaded hrecords hname hhit hbuiltin

/-- A function of the innermost level is found by its call also after it has been
changed in place. -/
theorem Table.findFunction?_of_edited {table : Table} {key name : Ident} {s : Symbol Ident}
    {args : List (Ty Ident)} {version : Version}
    (hat : table.levels.at? table.current key = some s) (hsees : version.Sees table.current)
    (hkey : table.pool.ident? (signature table.pool.text (table.pool.text name) args) = some key)
    (edits : List (Declaration.Edit Ident)) :
    (table.perform (.edit key edits)).2.findFunction? name args version =
      some ⟨s.editAll edits, table.current, decide (table.current ≤ lastTierLevel), true⟩ := by
  have hcurrent : (table.levels.modifyCurrent key (fun s => s.editAll edits)).current =
      table.current := Levels.current_eq_of_count (Levels.count_modifyCurrent _ _ _)
  have hident : (table.perform (.edit key edits)).2.pool.ident?
      (signature (table.perform (.edit key edits)).2.pool.text
        ((table.perform (.edit key edits)).2.pool.text name) args) = some key := by
    rw [perform_edit hat]
    exact hkey
  rw [findFunction?_of_ident? hident, perform_edit hat]
  refine find?_eq_some_iff.mpr ⟨Levels.find?_eq_some_iff.mpr ⟨?_, ?_, ?_⟩, rfl, ?_⟩
  · exact mem_eligibleLevels_iff_sees.mpr ⟨Nat.le_of_eq hcurrent.symm, hsees⟩
  · rw [Levels.at?_modifyCurrent, if_pos ⟨rfl, rfl⟩]
    exact congrArg (Option.map _) hat
  · intro other hother hlt
    have hle := ((mem_eligibleLevels _ _ _).mp hother).1
    exact absurd hlt (Nat.not_lt.mpr (hcurrent ▸ hle))
  · exact (decide_eq_true hcurrent.symm).symm

/-- A call of a function in a tier still ends there after a parameter has been added
to the function in place. -/
theorem builtin_call_beside_added_parameter :
    let f := Pool.blank.intern "f"
    let float : Ty Ident := Ty.scalar .float
    let key := f.2.intern (signature f.2.text (f.2.text f.1) [float])
    let actions := [Action.builtinFunction .essl300 (Ty.scalar .void) "f" [float],
      Action.edit key.1 [.pushParam ⟨none, float⟩]]
    let table := (Table.ofPool Pool.blank).after actions
    ((Table.ofPool Pool.blank).WordedRun actions ∧ table.pool.Issued f.1 ∧
      ∃ hit, table.findFunction? f.1 [float] .essl300 = some hit ∧ hit.isBuiltin = true ∧
        hit.symbol.paramTypes? = some [float, float]) ∧
      table.hasBuiltinFunction f.1 .essl300 = true := by
  intro f float key actions table
  have hfloat : ∀ pool, float.Worded pool := fun pool => Ty.worded_of_plain rfl
  have hrun : (Table.ofPool Pool.blank).WordedRun actions := by
    refine ⟨⟨by decide, ?_⟩, ?_, trivial⟩
    · intro types htypes
      cases htypes
      exact List.forall_mem_singleton.mpr (hfloat _)
    · intro p hp
      cases List.mem_singleton.mp hp
      exact hfloat _
  -- The function is stored in the innermost level, so that it can be changed there.
  let start := Table.ofPool Pool.blank
  let symbol : Symbol Ident := ⟨start.nextId, f.1, .prototype (Ty.scalar .void) [float]⟩
  let attempt : Attempt start := ⟨f.2, 2, by decide, symbol⟩
  have hattempt : start.attempt? actions[0] = some attempt := rfl
  obtain ⟨_, hpool, hat⟩ := Table.accepted_of_free (start.effect_perform _) hattempt
    (Levels.at?_fresh _ _)
  let declared := (start.perform actions[0]).2
  have hgrows : f.2.Grows declared.pool := hpool ▸ Pool.grows_intern f.2 _
  have hsignature : signature declared.pool.text (declared.pool.text f.1) [float] =
      signature f.2.text (f.2.text f.1) [float] :=
    signature_text_of_grows hgrows (Pool.issued_intern Pool.blank "f")
      (List.forall_mem_singleton.mpr (hfloat f.2).known)
  have hident : declared.pool.ident? (signature declared.pool.text (declared.pool.text f.1)
      [float]) = some key.1 := by
    rw [hsignature, hpool]
    exact (key.2.ident?_iff _ _).mpr (Pool.text?_intern_self f.2 _)
  have hcurrent : declared.current = 2 := Levels.current_eq_of_count
    (Table.count_of_attempt? (start.effect_perform actions[0]) hattempt)
  have hsees : Version.essl300.Sees declared.current := by
    rw [hcurrent, Version.sees_iff_eligible]
    rfl
  have hname : declared.pool.Issued f.1 := (Pool.issued_intern Pool.blank "f").mono hgrows
  have hthere : declared.levels.at? declared.current key.1 = some symbol := by
    rw [hcurrent]
    exact hat
  have hhit := Table.findFunction?_of_edited hthere hsees hident [.pushParam ⟨none, float⟩]
  have hbuiltin : decide (declared.current ≤ lastTierLevel) = true := by
    rw [hcurrent]
    rfl
  have hpair : ∀ (t : Table) (a b), t.after [a, b] = ((t.perform a).2.perform b).2 :=
    fun _ _ _ => rfl
  have htable : table = (declared.perform (.edit key.1 [.pushParam ⟨none, float⟩])).2 :=
    hpair start _ _
  have hedited := Table.grows_of_effect
    (declared.effect_perform (.edit key.1 [.pushParam ⟨none, float⟩]))
  rw [← htable] at hhit hedited
  refine ⟨⟨hrun, hname.mono hedited, _, hhit, hbuiltin, rfl⟩, ?_⟩
  exact (function_names_exact Pool.blank actions).2.2 hrun f.1 [float] .essl300 _
    (hname.mono hedited) hhit hbuiltin

end ShaderScope
