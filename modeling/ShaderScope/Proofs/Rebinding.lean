import ShaderScope.Proofs.BuiltinView
import ShaderScope.Proofs.FunctionNames
import ShaderScope.Proofs.Rejections

/-!
# Copies and their keys

A rebind looks for a symbol under the key that it is given, and stores the copy under
the key that the symbol has by now. As long as the two keys are one, the key finds the
copy afterwards. A parameter that is added to a stored function parts them: the
function stays under its first signature, and a copy of it goes under the new one.
-/

namespace ShaderScope

namespace Table

variable {table : Table} {key : Ident} {version : Version} {hit : Hit}

/-- The key that a copy of the symbol would be stored under. -/
def copyKey (table : Table) (s : Symbol Ident) : Ident :=
  (s.levelKey table.pool).1

/-- Some symbol of the innermost level stands under the key. -/
def HasHere (table : Table) (key : Ident) : Prop :=
  ∃ s, table.levels.at? table.current key = some s

/-- The key shows what a rebind of it does. A copy that has been placed is what the key
finds afterwards, in the innermost scope, and a redeclaration is reported exactly where
the innermost level has the key. -/
structure ShowsRebind (table : Table) (key : Ident) (version : Version) : Prop where
  visible : ∀ id, (table.rebind key version).1 = .ok id →
    ∃ hit, table.find? key version = some hit ∧
      (table.rebind key version).2.find? key version =
        some ⟨hit.symbol.rebind id, table.current, false, true⟩
  redeclared_iff : (∃ name existing,
    (table.rebind key version).1 = .error (.redeclared name existing)) ↔ table.HasHere key

/-! ## What a rebind does -/

/-- The attempt that a rebind makes with what it has found. -/
def copyAttempt (table : Table) (s : Symbol Ident) : Attempt table :=
  ⟨table.pool, table.current, table.current_lt, s.rebind table.nextId⟩

theorem attempt?_rebind (h : table.find? key version = some hit) :
    table.attempt? (.rebind key version) = some (table.copyAttempt hit.symbol) := by
  rw [attempt?, h]
  rfl

theorem effect_rebind (table : Table) (key : Ident) (version : Version) :
    Effect table (.rebind key version) (.declared (table.rebind key version).1)
      (table.rebind key version).2 :=
  table.effect_perform (.rebind key version)

theorem rebind_of_unresolved (h : table.find? key version = none) :
    table.rebind key version = (.error (.unresolved key), table) := by
  rw [rebind, h]

/-- A copy is placed where its own key is free. Nothing else changes in the levels. -/
theorem rebind_of_free (h : table.find? key version = some hit)
    (hfree : ¬ table.HasHere (table.copyKey hit.symbol)) :
    (table.rebind key version).1 = .ok table.nextId ∧
      (table.rebind key version).2.current = table.current ∧
      ∀ level k, (table.rebind key version).2.levels.at? level k =
        if level = table.current ∧ k = table.copyKey hit.symbol then
          some (hit.symbol.rebind table.nextId)
        else table.levels.at? level k := by
  rcases effect_of_attempt? (table.effect_rebind key version) (attempt?_rebind h) with
    ⟨levels, hdeclare, hanswer, hafter⟩ | ⟨_, hdeclare, _, _⟩
  · obtain ⟨_, hcount, hat⟩ := Levels.declare_eq_ok hdeclare
    rw [Outcome.declared.inj hanswer, hafter]
    exact ⟨rfl, Levels.current_eq_of_count hcount, hat⟩
  · obtain ⟨existing, htaken, _⟩ := Levels.declare_eq_error hdeclare
    exact absurd ⟨existing, htaken⟩ hfree

/-- A copy under another key leaves what the key finds as it is. -/
theorem find?_rebind_of_ne (h : table.find? key version = some hit)
    (hfree : ¬ table.HasHere (table.copyKey hit.symbol))
    (hne : table.copyKey hit.symbol ≠ key) :
    (table.rebind key version).2.find? key version = table.find? key version := by
  obtain ⟨_, hcurrent, hat⟩ := rebind_of_free h hfree
  have hsame : ∀ level ∈ eligibleLevels version table.current,
      (table.rebind key version).2.levels.at? level key = table.levels.at? level key := by
    intro level _
    rw [hat, if_neg fun hplace => hne hplace.2.symm]
  rw [find?, find?, hcurrent, Levels.find?_congr hsame]

/-- It is refused as a redeclaration where its own key is taken. -/
theorem rebind_of_taken (h : table.find? key version = some hit)
    (htaken : table.HasHere (table.copyKey hit.symbol)) :
    ∃ name existing, (table.rebind key version).1 = .error (.redeclared name existing) := by
  obtain ⟨existing, hat⟩ := htaken
  have hrefused := (refused_of_taken (table.effect_rebind key version) (attempt?_rebind h) hat).1
  exact ⟨_, _, Outcome.declared.inj hrefused⟩

/-! ## What the key shows -/

/-- No symbol stands above the innermost level. -/
theorem at?_of_current_lt (table : Table) {level : Nat} (h : table.current < level) (key : Ident) :
    table.levels.at? level key = none := by
  cases hat : table.levels.at? level key with
  | none => rfl
  | some s =>
      have hlevel := Levels.lt_count_of_at? hat
      have hcurrent : table.current + 1 = table.levels.count := table.levels.current_add_one
      omega

/-- A symbol of a scope is found if no scope further inside has its key. -/
theorem find?_of_none_above {level : Nat} (hscope : globalLevel ≤ level) {s : Symbol Ident}
    (hat : table.levels.at? level key = some s)
    (habove : ∀ other, level < other → table.levels.at? other key = none) (version : Version) :
    table.find? key version = some ⟨s, level, false, decide (level = table.current)⟩ := by
  obtain ⟨last, found, _, hfound, hnone, hfind⟩ := exists_find?_of_scope hscope hat version
  have hlast : last = level := by
    rcases Nat.lt_trichotomy last level with hlt | heq | hgt
    · rw [hnone _ hlt] at hat
      cases hat
    · exact heq
    · rw [habove _ hgt] at hfound
      cases hfound
  subst hlast
  rw [hat] at hfound
  cases hfound
  exact hfind

/-- A symbol of the innermost scope is found before all others of its key. -/
theorem find?_of_here (hscope : globalLevel ≤ table.current) {s : Symbol Ident}
    (hat : table.levels.at? table.current key = some s) (version : Version) :
    table.find? key version = some ⟨s, table.current, false, true⟩ := by
  rw [find?_of_none_above hscope hat (fun _ h => table.at?_of_current_lt h key),
    decide_eq_true rfl]

theorem current_openScope (table : Table) : table.openScope.current = table.current + 1 := by
  have hcount := table.levels.count_push
  have hinner := table.levels.push.current_add_one
  have houter := table.levels.current_add_one
  change table.levels.push.current = table.levels.current + 1
  omega

/-- A scope that has just been opened holds nothing. -/
theorem not_hasHere_openScope (table : Table) (key : Ident) : ¬ table.openScope.HasHere key := by
  rintro ⟨s, hat⟩
  have hinner : table.current < table.openScope.current := by
    rw [current_openScope]
    exact Nat.lt_succ_self _
  have houter := (table.levels.at?_push table.openScope.current key).symm.trans hat
  rw [table.at?_of_current_lt hinner] at houter
  cases houter

/-- What the innermost scope holds is still found from a new scope inside of it. -/
theorem find?_openScope (hscope : globalLevel ≤ table.current) {s : Symbol Ident}
    (hat : table.levels.at? table.current key = some s) (version : Version) :
    table.openScope.find? key version = some ⟨s, table.current, false, false⟩ := by
  have hpush : ∀ level, table.openScope.levels.at? level key = table.levels.at? level key :=
    fun level => table.levels.at?_push level key
  have houter : table.current ≠ table.openScope.current := by
    rw [current_openScope]
    exact Nat.ne_of_lt (Nat.lt_succ_self _)
  rw [find?_of_none_above hscope ((hpush _).trans hat)
      (fun level h => (hpush level).trans (table.at?_of_current_lt h key)),
    decide_eq_false houter]

theorem showsRebind_of_unresolved (hscope : globalLevel ≤ table.current)
    (h : table.find? key version = none) : table.ShowsRebind key version := by
  have hanswer := congrArg Prod.fst (rebind_of_unresolved h)
  refine ⟨?_, ?_, ?_⟩
  · intro id hok
    rw [hanswer] at hok
    cases hok
  · rintro ⟨name, existing, herror⟩
    rw [hanswer] at herror
    cases herror
  · rintro ⟨s, hat⟩
    rw [find?_of_here hscope hat] at h
    cases h

/-- A rebind that places a copy is shown exactly if the copy keeps the key. -/
theorem showsRebind_iff_of_free (hscope : globalLevel ≤ table.current)
    (h : table.find? key version = some hit)
    (hfree : ¬ table.HasHere (table.copyKey hit.symbol)) :
    table.ShowsRebind key version ↔ table.copyKey hit.symbol = key := by
  obtain ⟨hanswer, hcurrent, hat⟩ := rebind_of_free h hfree
  constructor
  · intro hshows
    by_contra hne
    -- The key finds what it found before, so the copy has to be there already.
    obtain ⟨found, _, hafter⟩ := hshows.visible _ hanswer
    rw [find?_rebind_of_ne h hfree hne] at hafter
    have hhere := (Levels.find?_eq_some_iff.mp (find?_eq_some_iff.mp hafter).1).2.1
    obtain ⟨_, _, herror⟩ := hshows.redeclared_iff.mpr ⟨_, hhere⟩
    rw [hanswer] at herror
    cases herror
  · intro hkey
    refine ⟨?_, ?_, ?_⟩
    · intro id hok
      rw [hanswer] at hok
      cases hok
      refine ⟨hit, h, ?_⟩
      have hplaced : (table.rebind key version).2.levels.at? (table.rebind key version).2.current
          key = some (hit.symbol.rebind table.nextId) := by
        rw [hat, if_pos ⟨hcurrent, hkey.symm⟩]
      rw [find?_of_here (hcurrent ▸ hscope) hplaced, hcurrent]
    · rintro ⟨name, existing, herror⟩
      rw [hanswer] at herror
      cases herror
    · intro hhere
      exact absurd (hkey.symm ▸ hhere) hfree

/-- A rebind that is refused is shown exactly if the innermost level has the key. -/
theorem showsRebind_iff_of_taken (h : table.find? key version = some hit)
    (htaken : table.HasHere (table.copyKey hit.symbol)) :
    table.ShowsRebind key version ↔ table.HasHere key := by
  have hrefused := rebind_of_taken h htaken
  constructor
  · intro hshows
    exact hshows.redeclared_iff.mp hrefused
  · intro hhere
    refine ⟨?_, fun _ => hhere, fun _ => hrefused⟩
    intro id hok
    obtain ⟨_, _, herror⟩ := hrefused
    rw [hok] at herror
    cases herror

theorem showsRebind_iff (hscope : globalLevel ≤ table.current) :
    table.ShowsRebind key version ↔ ∀ hit, table.find? key version = some hit →
      table.copyKey hit.symbol = key ∨
        table.HasHere (table.copyKey hit.symbol) ∧ table.HasHere key := by
  cases hfind : table.find? key version with
  | none =>
      have hshows := showsRebind_of_unresolved hscope hfind
      exact ⟨fun _ => nofun, fun _ => hshows⟩
  | some hit =>
      have hone : ∀ P : Hit → Prop, (∀ found, some hit = some found → P found) ↔ P hit :=
        fun P => ⟨fun h => h hit rfl, fun h found heq => Option.some.inj heq ▸ h⟩
      rw [hone]
      by_cases htaken : table.HasHere (table.copyKey hit.symbol)
      · rw [showsRebind_iff_of_taken hfind htaken]
        constructor
        · intro hhere
          exact .inr ⟨htaken, hhere⟩
        · rintro (hkey | ⟨_, hhere⟩)
          · exact hkey ▸ htaken
          · exact hhere
      · rw [showsRebind_iff_of_free hscope hfind htaken]
        exact ⟨.inl, fun h => h.resolve_right fun hboth => htaken hboth.1⟩

end Table

/-! ## Keys that stay right -/

theorem Ty.Known.mono {p q : Pool} (h : p.Grows q) {t : Ty Ident} (ht : t.Known p) : t.Known q :=
  Everywhere.mono (fun _ hu d hd => (hu d hd).mono h) ht

/-- The symbol stands under the key that a copy of it would get, now and when the pool
has grown. -/
structure StandsAs (pool : Pool) (key : Ident) (s : Symbol Ident) : Prop where
  issued : pool.Issued s.name
  known : s.declaration.Takes (Ty.Known pool)
  text?_key : pool.text? key = some (s.keyText pool.text)

namespace StandsAs

variable {pool grown : Pool} {key : Ident} {s : Symbol Ident}

theorem keyText_of_grows (hgrows : pool.Grows grown) (hissued : pool.Issued s.name)
    (hknown : s.declaration.Takes (Ty.Known pool)) :
    s.keyText grown.text = s.keyText pool.text := by
  cases htypes : s.paramTypes? with
  | none =>
      rw [Symbol.keyText_of_none htypes, Symbol.keyText_of_none htypes,
        Pool.text_of_grows hgrows hissued]
  | some types =>
      rw [Symbol.keyText_of_some htypes, Symbol.keyText_of_some htypes]
      exact signature_text_of_grows hgrows hissued (hknown types htypes)

theorem mono (hgrows : pool.Grows grown) (h : StandsAs pool key s) : StandsAs grown key s where
  issued := h.issued.mono hgrows
  known := h.known.mono fun _ ht => ht.mono hgrows
  text?_key := by
    rw [keyText_of_grows hgrows h.issued h.known]
    exact hgrows key _ h.text?_key

/-- A symbol that is stored now stands so. -/
theorem levelKey (hissued : pool.Issued s.name) (hknown : s.declaration.Takes (Ty.Known pool)) :
    StandsAs (s.levelKey pool).2 (s.levelKey pool).1 s where
  issued := hissued.mono (s.levelKey_grows pool)
  known := hknown.mono fun _ ht => ht.mono (s.levelKey_grows pool)
  text?_key := by
    rw [keyText_of_grows (s.levelKey_grows pool) hissued hknown]
    exact Symbol.text?_levelKey hissued

/-- Only its name and its parameters matter for the key of a symbol. -/
theorem of_eq (h : StandsAs pool key s) {t : Symbol Ident} (hname : t.name = s.name)
    (htypes : t.paramTypes? = s.paramTypes?) : StandsAs pool key t where
  issued := by
    rw [hname]
    exact h.issued
  known := fun types ht => h.known types (htypes.symm.trans ht)
  text?_key := by
    rw [h.text?_key, Symbol.keyText, Symbol.keyText, hname, htypes]

theorem copyKey_eq {table : Table} (h : StandsAs table.pool key s) : table.copyKey s = key := by
  have hkey := Symbol.text?_levelKey h.issued
  have hgrown := s.levelKey_grows table.pool key _ h.text?_key
  exact (Pool.eq_iff_of_text? hkey hgrown).mpr rfl

end StandsAs

/-- What is declared has been issued, with the definitions in all parameters, and no
parameter is added to a stored function. -/
def Action.KeepsKeys (table : Table) : Action Ident → Prop
  | .declare name declaration =>
      table.pool.Issued name ∧ declaration.Takes (Ty.Known table.pool)
  | .declareBuiltin _ _ declaration => declaration.Takes (Ty.Known table.pool)
  | .edit key edits => ∀ s, table.levels.at? table.current key = some s →
      s.isFunction = true → ∀ p, .pushParam p ∉ edits
  | _ => True

/-- Every action of a run keeps the keys of the table that it meets. -/
def Table.KeyKeepingRun (table : Table) : List (Action Ident) → Prop
  | [] => True
  | action :: rest => action.KeepsKeys table ∧ (table.perform action).2.KeyKeepingRun rest

namespace Table

variable {table after : Table} {action : Action Ident}

theorem standsAs_of_attempt? (h : table.levels.EveryStored (StandsAs table.pool))
    (haction : action.KeepsKeys table) {attempt : Attempt table}
    (hattempt : table.attempt? action = some attempt) :
    StandsAs attempt.keyed attempt.key attempt.symbol := by
  cases action with
  | declare name declaration =>
      cases hattempt
      exact StandsAs.levelKey haction.1 haction.2
  | rebind key version =>
      obtain ⟨hit, hfind, rfl⟩ := Option.map_eq_some_iff.mp hattempt
      obtain ⟨found, hfound, rfl⟩ := Option.map_eq_some_iff.mp hfind
      have hstands := h _ _ _ (Levels.find?_eq_some_iff.mp hfound).2.1
      exact StandsAs.levelKey hstands.issued hstands.known
  | declareBuiltin tier name declaration =>
      cases hattempt
      exact StandsAs.levelKey (Pool.issued_intern table.pool name)
        (haction.mono fun _ ht => ht.mono (Pool.grows_intern table.pool name))
  | _ => cases hattempt

/-- One step of the induction over runs. -/
theorem standsAs_of_effect {outcome : Outcome Ident}
    (h : table.levels.EveryStored (StandsAs table.pool)) (haction : action.KeepsKeys table)
    (heffect : table.Effect action outcome after) :
    after.levels.EveryStored (StandsAs after.pool) := by
  refine everyStored_of_effect (fun hgrows hstands => hstands.mono hgrows) h heffect ?_ ?_
  · intro attempt hattempt
    exact standsAs_of_attempt? h haction hattempt
  · rintro key edits s rfl hat hstands
    exact hstands.of_eq (s.name_editAll edits) (Symbol.paramTypes?_editAll (haction s hat))

theorem standsAs_after {actions : List (Action Ident)}
    (h : table.levels.EveryStored (StandsAs table.pool)) (hrun : table.KeyKeepingRun actions) :
    (table.after actions).levels.EveryStored (StandsAs (table.after actions).pool) := by
  induction actions generalizing table with
  | nil => exact h
  | cons action rest ih =>
      rw [after_cons]
      exact ih (standsAs_of_effect h hrun.1 (table.effect_perform action)) hrun.2

end Table

/-- A function of which only the types are known stands under its signature, once it
has been declared in a scope that holds nothing. -/
theorem Table.declare_prototype_openScope (table : Table) (name : Ident) (result : Ty Ident)
    (params : List (Ty Ident)) :
    let keyed := table.pool.intern (signature table.pool.text (table.pool.text name) params)
    let declared := (table.openScope.perform (.declare name (.prototype result params))).2
    declared.pool = keyed.2 ∧ declared.nextNumber = table.nextNumber + 1 ∧
      declared.current = table.openScope.current ∧
      declared.levels.at? declared.current keyed.1 =
        some ⟨table.nextId, name, .prototype result params⟩ := by
  intro keyed declared
  let action : Action Ident := .declare name (.prototype result params)
  let symbol : Symbol Ident := ⟨table.nextId, name, .prototype result params⟩
  let attempt : Attempt table.openScope :=
    ⟨table.pool, table.openScope.current, table.openScope.current_lt, symbol⟩
  have hattempt : table.openScope.attempt? action = some attempt := rfl
  have hkey : symbol.levelKey table.pool = keyed := Symbol.levelKey_prototype _ _ _ _ _
  rcases effect_of_attempt? (table.openScope.effect_perform action) hattempt with
    ⟨levels, hdeclare, _, hafter⟩ | ⟨_, hdeclare, _, _⟩
  · obtain ⟨_, hcount, hat⟩ := Levels.declare_eq_ok hdeclare
    have hdeclared : declared = { table.openScope with
        pool := keyed.2, levels, nextNumber := table.nextNumber + 1 } := by
      rw [← hkey]
      exact hafter
    have hcurrent : declared.current = table.openScope.current := by
      rw [hdeclared]
      exact Levels.current_eq_of_count hcount
    have hplaced : levels.at? table.openScope.current keyed.1 = some symbol := by
      rw [← hkey]
      exact (hat _ _).trans (if_pos ⟨rfl, rfl⟩)
    rw [hcurrent, hdeclared]
    exact ⟨rfl, rfl, rfl, hplaced⟩
  · obtain ⟨existing, htaken, _⟩ := Levels.declare_eq_error hdeclare
    exact absurd ⟨existing, htaken⟩ (not_hasHere_openScope table _)

/-- What is changed in the innermost level stays there under its key. -/
theorem Table.edited_stays_here {table : Table} {key : Ident} {s : Symbol Ident}
    (hat : table.levels.at? table.current key = some s) (edits : List (Declaration.Edit Ident)) :
    ∃ levels, (table.perform (.edit key edits)).2 = { table with levels } ∧
      levels.current = table.current ∧ levels.at? levels.current key = some (s.editAll edits) := by
  have hcount := table.levels.count_modifyCurrent key (fun s => s.editAll edits)
  have hcurrent := Levels.current_eq_of_count hcount
  refine ⟨_, congrArg Prod.snd (perform_edit hat edits), hcurrent, ?_⟩
  rw [Levels.at?_modifyCurrent, if_pos ⟨hcurrent, rfl⟩, hcurrent]
  exact congrArg (Option.map _) hat

/-- No signature with a parameter is one without. -/
theorem signature_cons_ne_nil {ν : Type} (text other : ν → String) (name : String) (t : Ty ν)
    (ts : List (Ty ν)) : signature text name (t :: ts) ≠ signature other name [] := by
  intro h
  have hchars := List.append_cancel_left (String.ofList_inj.mp h)
  have hlength := congrArg List.length hchars
  have hsizes : 0 < t.shape.sizeChars.length := by
    unfold Shape.sizeChars
    split <;> exact Nat.succ_pos _
  simp [mangledList, t.mangledChars_eq] at hlength
  omega

/-- After any run, with a scope open, a key shows what a rebind of it does exactly if
the symbol that it finds would be stored under the same key again, or the innermost
level has both that key and the one of the copy. It does so for every key, if no
parameter has been added to a stored function and all that was declared had been
issued. -/
theorem showsRebind_iff_keeps_key (pool : Pool) (actions : List (Action Ident))
    (hscope : globalLevel ≤ ((Table.ofPool pool).after actions).current) :
    let table := (Table.ofPool pool).after actions
    (∀ key version, table.ShowsRebind key version ↔
      ∀ hit, table.find? key version = some hit → table.copyKey hit.symbol = key ∨
        table.HasHere (table.copyKey hit.symbol) ∧ table.HasHere key) ∧
    ((Table.ofPool pool).KeyKeepingRun actions →
      ∀ key version, table.ShowsRebind key version) := by
  intro table
  have hexact : ∀ key version, table.ShowsRebind key version ↔ _ :=
    fun key version => Table.showsRebind_iff hscope
  refine ⟨hexact, ?_⟩
  intro hrun key version
  have hstands : table.levels.EveryStored (StandsAs table.pool) :=
    Table.standsAs_after (Levels.EveryStored.fresh _) hrun
  refine (hexact key version).mpr ?_
  intro hit hfind
  have hat := (Levels.find?_eq_some_iff.mp (Table.find?_eq_some_iff.mp hfind).1).2.1
  exact .inl (hstands _ _ _ hat).copyKey_eq

/-- A function of an outer scope is rebound under its signature, which shows the copy. -/
theorem signature_shows_rebound_function :
    let f := Pool.blank.intern "f"
    let float : Ty Ident := Ty.scalar .float
    let key := f.2.intern (signature f.2.text (f.2.text f.1) [float])
    let actions := [Action.openScope, .declare f.1 (.prototype float [float]), .openScope]
    let table := (Table.ofPool f.2).after actions
    (globalLevel ≤ table.current ∧ (Table.ofPool f.2).KeyKeepingRun actions) ∧
      (table.rebind key.1 .essl300).1 = .ok ⟨2⟩ ∧
      (table.rebind key.1 .essl300).2.find? key.1 .essl300 =
        some ⟨⟨⟨2⟩, f.1, .prototype float [float]⟩, 4, false, true⟩ := by
  intro f float key actions table
  have hfloat : (Declaration.prototype float [float]).Takes (Ty.Known f.2) := by
    intro types htypes t ht
    cases htypes
    rw [List.mem_singleton.mp ht]
    exact (Ty.worded_of_plain rfl).known
  have hrun : (Table.ofPool f.2).KeyKeepingRun actions :=
    ⟨trivial, ⟨Pool.issued_intern Pool.blank "f", hfloat⟩, trivial, trivial⟩
  let declared := ((Table.ofPool f.2).openScope.perform (.declare f.1
    (.prototype float [float]))).2
  obtain ⟨_, hnumber, hcurrent, hat⟩ :=
    Table.declare_prototype_openScope (Table.ofPool f.2) f.1 float [float]
  have hscope : globalLevel ≤ declared.current := Nat.le_of_eq hcurrent.symm
  have hinner : table.current = 4 := by
    change declared.openScope.current = 4
    rw [Table.current_openScope, hcurrent]
    rfl
  have hopen : globalLevel ≤ table.current := by
    rw [hinner]
    decide
  have hfind : table.find? key.1 .essl300 =
      some ⟨⟨⟨1⟩, f.1, .prototype float [float]⟩, declared.current, false, false⟩ :=
    Table.find?_openScope hscope hat .essl300
  have hanswer := (Table.rebind_of_free hfind (Table.not_hasHere_openScope declared _)).1
  have hid : table.nextId = ⟨2⟩ := congrArg SymbolId.mk hnumber
  rw [hid] at hanswer
  have hshows := (showsRebind_iff_keeps_key f.2 actions hopen).2 hrun key.1 .essl300
  obtain ⟨hit, hhit, hafter⟩ := hshows.visible _ hanswer
  have hsame := Option.some.inj (hfind.symm.trans hhit)
  rw [← hsame] at hafter
  refine ⟨⟨hopen, hrun⟩, hanswer, hafter.trans ?_⟩
  rw [← hinner]
  rfl

/-- A function that got a parameter in its own scope is not found by its key after a
rebind of that key. The copy has another signature, and the key finds the function in
the outer scope as before. -/
theorem key_misses_rebound_function :
    let f := Pool.blank.intern "f"
    let float : Ty Ident := Ty.scalar .float
    let key := f.2.intern (signature f.2.text (f.2.text f.1) [])
    let actions := [Action.openScope, .declare f.1 (.prototype float []),
      .edit key.1 [.pushParam ⟨none, float⟩], .openScope]
    let table := (Table.ofPool f.2).after actions
    globalLevel ≤ table.current ∧ (table.rebind key.1 .essl300).1 = .ok ⟨2⟩ ∧
      (table.rebind key.1 .essl300).2.find? key.1 .essl300 =
        some ⟨⟨⟨1⟩, f.1, .prototype float [float]⟩, 3, false, false⟩ ∧
      ¬ table.ShowsRebind key.1 .essl300 := by
  intro f float key actions table
  let declared := ((Table.ofPool f.2).openScope.perform (.declare f.1 (.prototype float []))).2
  obtain ⟨hpool, hnumber, hcurrent, hat⟩ :=
    Table.declare_prototype_openScope (Table.ofPool f.2) f.1 float []
  obtain ⟨levels, hperform, hlevels, hedited⟩ :=
    Table.edited_stays_here hat [.pushParam ⟨none, float⟩]
  let edited : Table := { declared with levels }
  have htable : table = edited.openScope := congrArg Table.openScope hperform
  have hlevel : edited.current = 3 := hlevels.trans hcurrent
  have hscope : globalLevel ≤ edited.current := Nat.le_of_eq hlevel.symm
  have hopen : globalLevel ≤ table.current := by
    rw [htable, Table.current_openScope, hlevel]
    decide
  have hfind : table.find? key.1 .essl300 =
      some ⟨⟨⟨1⟩, f.1, .prototype float [float]⟩, 3, false, false⟩ := by
    rw [htable, ← hlevel]
    exact Table.find?_openScope hscope hedited .essl300
  have hfree : ∀ k, ¬ table.HasHere k := by
    rw [htable]
    exact Table.not_hasHere_openScope edited
  have hid : table.nextId = ⟨2⟩ := by
    rw [htable]
    exact congrArg SymbolId.mk hnumber
  have hanswer := (Table.rebind_of_free hfind (hfree _)).1
  rw [hid] at hanswer
  have hgrown : table.pool = key.2 := by
    rw [htable]
    exact hpool
  have hname : table.pool.Issued f.1 := by
    rw [hgrown]
    exact (Pool.issued_intern Pool.blank "f").mono (Pool.grows_intern f.2 _)
  have htext : table.pool.text f.1 = f.2.text f.1 := by
    rw [hgrown]
    exact Pool.text_of_grows (Pool.grows_intern f.2 _) (Pool.issued_intern Pool.blank "f")
  -- The key stands for a signature without a parameter, and that of the copy has one.
  let copy : Symbol Ident := ⟨⟨1⟩, f.1, .prototype float [float]⟩
  have hne : table.copyKey copy ≠ key.1 := by
    intro hkey
    have hold : table.pool.text? key.1 = some (signature f.2.text (f.2.text f.1) []) := by
      rw [hgrown]
      exact Pool.text?_intern_self f.2 _
    have hnew : (copy.levelKey table.pool).2.text? (table.copyKey copy) =
        some (signature table.pool.text (table.pool.text f.1) [float]) :=
      Symbol.text?_levelKey hname
    rw [hkey, copy.levelKey_grows table.pool key.1 _ hold, htext] at hnew
    exact signature_cons_ne_nil _ _ _ _ _ (Option.some.inj hnew).symm
  have hstale := (Table.find?_rebind_of_ne hfind (hfree _) hne).trans hfind
  refine ⟨hopen, hanswer, hstale, ?_⟩
  rw [Table.showsRebind_iff_of_free hopen hfind (hfree _)]
  exact hne

end ShaderScope
