import ShaderScope.Proofs.Effects
import ShaderScope.Proofs.Signatures

/-!
# What the keys of a table stand for

In a run that declares words only, every key stands for the name of its symbol, or
for the signature that its function has now. That stays so while the pool grows,
and under all changes that add no parameter.
-/

namespace ShaderScope

variable {ν : Type}

/-! ## Encodings and names -/

theorem mangleFieldsOnto_congr {text other : ν → String} {fields : List (Field ν)}
    (h : ∀ f ∈ fields, ∀ r, f.type.mangleOnto text r = f.type.mangleOnto other r)
    (r : List Char) : mangleFieldsOnto text fields r = mangleFieldsOnto other fields r := by
  induction fields with
  | nil => rfl
  | cons f fields ih =>
      have hrest := ih (fun g hg => h g (List.mem_cons_of_mem _ hg))
      have hfirst := h f List.mem_cons_self
      obtain ⟨name, type⟩ := f
      simp only [mangleFieldsOnto, hrest, hfirst]

/-- An encoding depends on the names of the definitions within a type only. -/
theorem Ty.mangleOnto_congr {text other : ν → String} {t : Ty ν}
    (h : t.Everywhere fun u => ∀ d, u.definition? = some d → text d.name = other d.name) :
    ∀ r, t.mangleOnto text r = t.mangleOnto other r := by
  induction t using Ty.inductionOnFields with
  | step t ih =>
      intro r
      obtain ⟨base, shape, arrayLength, qualifiers⟩ := t
      cases base with
      | plain k => simp only [mangleOnto, Base.mangleOnto]
      | defined d =>
          have hname := h.self d rfl
          have hfields := mangleFieldsOnto_congr
            (fun f hf => ih d rfl f hf (h.field (d := d) rfl hf))
          obtain ⟨name, form, fields⟩ := d
          simp only [mangleOnto, Base.mangleOnto, Definition.mangleOnto, hfields]
          simp only at hname
          rw [hname]

theorem mangledList_congr {text other : ν → String} {ts : List (Ty ν)}
    (h : ∀ t ∈ ts, t.mangleOnto text [] = t.mangleOnto other []) :
    mangledList text ts = mangledList other ts := by
  induction ts with
  | nil => rfl
  | cons t ts ih =>
      have hrest := ih (fun u hu => h u (List.mem_cons_of_mem _ hu))
      simp only [mangledList, List.flatMap_cons, Ty.mangledChars] at hrest ⊢
      rw [hrest, h t List.mem_cons_self]

/-- The pool has issued the names of all definitions within the type. -/
def Ty.Known (pool : Pool) (t : Ty Ident) : Prop :=
  t.Everywhere fun u => ∀ d, u.definition? = some d → pool.Issued d.name

theorem Ty.Complete.known {pool : Pool} {t : Ty Ident} (h : t.Complete pool) : t.Known pool :=
  h.1.mono fun _ hu d hd => (hu.named d hd).issued

/-- A signature stays the same while the pool grows. -/
theorem signature_of_grows {p q : Pool} (h : p.Grows q) (name : String) {ts : List (Ty Ident)}
    (hts : ∀ t ∈ ts, t.Known p) : signature q.text name ts = signature p.text name ts := by
  have hlist : mangledList q.text ts = mangledList p.text ts := by
    refine mangledList_congr fun t ht => Ty.mangleOnto_congr ?_ []
    exact (hts t ht).mono fun u hu d hd => Pool.text_of_grows h (hu d hd)
  rw [signature, signature, hlist]

/-- So does the signature that a call by an issued name is looked for by. -/
theorem signature_text_of_grows {p q : Pool} (h : p.Grows q) {name : Ident}
    (hname : p.Issued name) {ts : List (Ty Ident)} (hts : ∀ t ∈ ts, t.Known p) :
    signature q.text (q.text name) ts = signature p.text (p.text name) ts := by
  rw [Pool.text_of_grows h hname]
  exact signature_of_grows h _ hts

/-! ## The text of a key -/

namespace Declaration

/-- The types of the parameters of a function. -/
def paramTypes? : Declaration ν → Option (List (Ty ν))
  | func f => some f.paramTypes
  | _ => none

/-- The change adds no parameter to the declaration. -/
def Keeps (d : Declaration ν) (e : Edit ν) : Prop :=
  d.isFunction = true → ∀ p, e ≠ .pushParam p

theorem paramTypes?_edit {d : Declaration ν} {e : Edit ν} (h : d.Keeps e) :
    (d.edit e).paramTypes? = d.paramTypes? := by
  cases d with
  | func f =>
      cases e with
      | pushParam p => exact absurd rfl (h rfl p)
      | resolveLength n => rfl
      | define => rfl
  | var v => cases e <;> rfl
  | typeName d => cases e <;> rfl

end Declaration

namespace Symbol

/-- The types of the parameters of a function symbol. -/
def paramTypes? (s : Symbol ν) : Option (List (Ty ν)) :=
  s.declaration.paramTypes?

theorem paramTypes?_editAll {s : Symbol ν} {es : List (Declaration.Edit ν)}
    (h : s.isFunction = true → ∀ p, .pushParam p ∉ es) :
    (s.editAll es).paramTypes? = s.paramTypes? := by
  induction es generalizing s with
  | nil => rfl
  | cons e es ih =>
      have hedit : s.declaration.Keeps e := by
        intro hfunction p he
        exact h hfunction p (he ▸ List.mem_cons_self)
      have hrest : (s.edit e).isFunction = true → ∀ p, .pushParam p ∉ es := by
        intro hfunction p hp
        rw [isFunction, edit, Declaration.isFunction_edit] at hfunction
        exact h hfunction p (List.mem_cons_of_mem _ hp)
      exact (ih hrest).trans (Declaration.paramTypes?_edit hedit)

/-- What the key of a symbol has to stand for. -/
def keyText (text : ν → String) (s : Symbol ν) : String :=
  match s.paramTypes? with
  | none => text s.name
  | some types => signature text (text s.name) types

theorem keyText_of_none {s : Symbol ν} (h : s.paramTypes? = none) (text : ν → String) :
    s.keyText text = text s.name := by
  rw [keyText, h]

theorem keyText_of_some {s : Symbol ν} {types : List (Ty ν)} (h : s.paramTypes? = some types)
    (text : ν → String) : s.keyText text = signature text (text s.name) types := by
  rw [keyText, h]

/-- The key of a symbol stands for what it has to stand for. -/
theorem text?_levelKey {pool : Pool} {s : Symbol Ident} (h : pool.Issued s.name) :
    (s.levelKey pool).2.text? (s.levelKey pool).1 = some (s.keyText pool.text) := by
  unfold levelKey keyText paramTypes?
  cases s.declaration with
  | func f => exact Pool.text?_intern_self pool _
  | var v => exact Pool.text?_of_issued h
  | typeName d => exact Pool.text?_of_issued h

end Symbol

/-- A symbol named by a word, with parameters that can be read back. -/
structure Symbol.Proper (pool : Pool) (s : Symbol Ident) : Prop where
  named : pool.Names s.name
  complete : ∀ types, s.paramTypes? = some types → ∀ t ∈ types, t.Complete pool

namespace Symbol

variable {p q : Pool} {s : Symbol Ident}

theorem Proper.mono (h : p.Grows q) (hs : s.Proper p) : s.Proper q where
  named := hs.named.mono h
  complete := fun types htypes t ht => (hs.complete types htypes t ht).mono_pool h

theorem Proper.keyText_of_grows (h : p.Grows q) (hs : s.Proper p) :
    s.keyText q.text = s.keyText p.text := by
  have hname := Pool.text_of_grows h hs.named.issued
  cases htypes : s.paramTypes? with
  | none => rw [keyText_of_none htypes, keyText_of_none htypes, hname]
  | some types =>
      calc
        s.keyText q.text = signature q.text (p.text s.name) types := by
          rw [keyText_of_some htypes, hname]
        _ = signature p.text (p.text s.name) types :=
          signature_of_grows h _ (fun t ht => (hs.complete types htypes t ht).known)
        _ = s.keyText p.text := (keyText_of_some htypes p.text).symm

end Symbol

/-- A proper symbol, under a key that stands for what it has to stand for. -/
structure KeyedAs (pool : Pool) (key : Ident) (s : Symbol Ident) : Prop where
  proper : s.Proper pool
  text?_key : pool.text? key = some (s.keyText pool.text)

namespace KeyedAs

variable {pool grown : Pool} {key : Ident} {s : Symbol Ident}

theorem mono (hgrows : pool.Grows grown) (h : KeyedAs pool key s) : KeyedAs grown key s where
  proper := h.proper.mono hgrows
  text?_key := by
    rw [h.proper.keyText_of_grows hgrows]
    exact hgrows key _ h.text?_key

/-- Only its name and its parameters matter for the key of a symbol. -/
theorem of_eq (h : KeyedAs pool key s) {t : Symbol Ident} (hname : t.name = s.name)
    (htypes : t.paramTypes? = s.paramTypes?) : KeyedAs pool key t := by
  refine ⟨⟨?_, ?_⟩, ?_⟩
  · rw [hname]
    exact h.proper.named
  · rw [htypes]
    exact h.proper.complete
  · rw [h.text?_key, Symbol.keyText, Symbol.keyText, hname, htypes]

end KeyedAs

/-- Every stored symbol is proper and stands under its key. -/
def Keyed (pool : Pool) (levels : Levels Ident) : Prop :=
  levels.EveryStored (KeyedAs pool)

/-! ## Runs that keep keys -/

/-- A declaration whose parameters can be read back. -/
def Declaration.Proper (pool : Pool) (d : Declaration Ident) : Prop :=
  ∀ types, d.paramTypes? = some types → ∀ t ∈ types, t.Complete pool

/-- Words are declared, with parameters that can be read back, and no parameter is
added to a stored function. -/
def Action.Proper (table : Table) : Action Ident → Prop
  | .declare name declaration => table.pool.Names name ∧ declaration.Proper table.pool
  | .declareBuiltin _ name declaration => IsWord name ∧ declaration.Proper table.pool
  | .edit key edits => ∀ s, table.levels.at? table.current key = some s →
      s.isFunction = true → ∀ p, .pushParam p ∉ edits
  | _ => True

/-- Every action of a run is proper at the table that it meets. -/
def Table.ProperRun (table : Table) : List (Action Ident) → Prop
  | [] => True
  | action :: rest => action.Proper table ∧ (table.perform action).2.ProperRun rest

namespace Table

variable {table : Table} {action : Action Ident}

/-- A proper action makes an attempt for a proper symbol. -/
theorem proper_of_attempt? (h : Keyed table.pool table.levels) (haction : action.Proper table)
    {attempt : Attempt table} (hattempt : table.attempt? action = some attempt) :
    attempt.symbol.Proper attempt.pool := by
  cases action with
  | declare name declaration =>
      cases hattempt
      exact ⟨haction.1, haction.2⟩
  | rebind key version =>
      obtain ⟨hit, hfind, rfl⟩ := Option.map_eq_some_iff.mp hattempt
      obtain ⟨found, hfound, rfl⟩ := Option.map_eq_some_iff.mp hfind
      obtain ⟨_, hat, _⟩ := Levels.find?_eq_some_iff.mp hfound
      have hproper := (h _ _ _ hat).proper
      exact ⟨hproper.named, hproper.complete⟩
  | declareBuiltin tier name declaration =>
      cases hattempt
      refine ⟨Pool.names_intern table.pool haction.1, ?_⟩
      intro types htypes t ht
      exact (haction.2 types htypes t ht).mono_pool (Pool.grows_intern table.pool name)
  | _ => cases hattempt

/-- One step of the induction over runs. -/
theorem keyed_of_effect {outcome : Outcome Ident} {after : Table}
    (h : Keyed table.pool table.levels) (haction : action.Proper table)
    (heffect : table.Effect action outcome after) : Keyed after.pool after.levels := by
  refine everyStored_of_effect (fun hgrows hkeyed => hkeyed.mono hgrows) h heffect ?_ ?_
  · intro attempt hattempt
    have hproper := proper_of_attempt? h haction hattempt
    have hkey := Symbol.text?_levelKey hproper.named.issued
    have hgrows := attempt.symbol.levelKey_grows attempt.pool
    rw [← hproper.keyText_of_grows hgrows] at hkey
    exact ⟨hproper.mono hgrows, hkey⟩
  · rintro key edits s rfl hat hkeyed
    exact hkeyed.of_eq (s.name_editAll edits) (Symbol.paramTypes?_editAll (haction s hat))

theorem keyed_after {actions : List (Action Ident)} (h : Keyed table.pool table.levels)
    (hrun : table.ProperRun actions) :
    Keyed (table.after actions).pool (table.after actions).levels := by
  induction actions generalizing table with
  | nil => exact h
  | cons action rest ih =>
      rw [after_cons]
      exact ih (keyed_of_effect h hrun.1 (table.effect_perform action)) hrun.2

end Table

end ShaderScope
