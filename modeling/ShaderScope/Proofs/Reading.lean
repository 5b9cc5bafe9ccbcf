import Mathlib.Data.List.Forall2
import ShaderScope.Proofs.Keys
import ShaderScope.Table.TextTable

/-!
# Reading identifiers as strings

Levels over identifiers read as levels over strings if their entries do, one by one
and in the same order. On issued identifiers, equality of identifiers is equality of
strings, so that every operation on levels keeps the relation.
-/

namespace ShaderScope

/-! ## Symbols -/

theorem TextTable.keyOf_map (text : Ident → String) (s : Symbol Ident) :
    TextTable.keyOf (s.map text) = s.keyText text := by
  obtain ⟨id, name, declaration⟩ := s
  cases declaration with
  | var v => rfl
  | func f =>
      change (f.map text).signature _ (text name) = signature text (text name) f.paramTypes
      rw [Function.signature, Function.paramTypes_map, signature_map]
      rfl
  | typeName d => rfl

/-- The symbol reads as the one over strings, by whatever reads the pool. -/
structure Symbol.ReadsAs (pool : Pool) (s : Symbol Ident) (t : Symbol String) : Prop where
  name : pool.text? s.name = some t.name
  map : ∀ read, pool.ReadBy read → s.map read = t

namespace Symbol.ReadsAs

variable {pool grown : Pool} {s : Symbol Ident} {t : Symbol String}

theorem mono (hgrows : pool.Grows grown) (h : s.ReadsAs pool t) : s.ReadsAs grown t where
  name := hgrows _ _ h.name
  map := fun read hread => h.map read (hread.of_grows hgrows)

theorem map_text (h : s.ReadsAs pool t) : s.map pool.text = t :=
  h.map pool.text pool.readBy_text

theorem id_eq (h : s.ReadsAs pool t) : s.id = t.id :=
  congrArg Symbol.id h.map_text

theorem isFunction_eq (h : s.ReadsAs pool t) : s.isFunction = t.isFunction := by
  rw [← h.map_text, isFunction_map]

theorem rebind (h : s.ReadsAs pool t) (id : SymbolId) :
    (s.rebind id).ReadsAs pool (t.rebind id) where
  name := h.name
  map := fun read hread => by rw [map_rebind, h.map read hread]

theorem editAll (h : s.ReadsAs pool t) {edits : List (Declaration.Edit Ident)}
    {texts : List (Declaration.Edit String)}
    (hedits : ∀ read, pool.ReadBy read → edits.map (Declaration.Edit.map read) = texts) :
    (s.editAll edits).ReadsAs pool (t.editAll texts) where
  name := by
    rw [name_editAll, name_editAll]
    exact h.name
  map := fun read hread => by rw [map_editAll, h.map read hread, hedits read hread]

theorem replace (h : s.ReadsAs pool t) {declaration : Declaration Ident}
    {text : Declaration String}
    (hdeclaration : ∀ read, pool.ReadBy read → declaration.map read = text) :
    Symbol.ReadsAs pool { s with declaration } { t with declaration := text } where
  name := h.name
  map := fun read hread => by
    have hid := congrArg Symbol.id (h.map read hread)
    have hname := congrArg Symbol.name (h.map read hread)
    simp only [Symbol.map] at hid hname
    simp only [Symbol.map, hid, hname, hdeclaration read hread]

/-- The key of a symbol reads as its key over strings. -/
theorem levelKey (h : s.ReadsAs pool t) :
    (s.levelKey pool).2.text? (s.levelKey pool).1 = some (TextTable.keyOf t) := by
  rw [← h.map_text, TextTable.keyOf_map]
  exact Symbol.text?_levelKey ⟨_, h.name⟩

end Symbol.ReadsAs

/-! ## Lists and options side by side -/

theorem findSome?_rel {α β γ δ : Type} {R : α → β → Prop} {S : γ → δ → Prop} {f : α → Option γ}
    {g : β → Option δ} (hstep : ∀ x y, R x y → Option.Rel S (f x) (g y)) {xs : List α}
    {ys : List β} (h : List.Forall₂ R xs ys) :
    Option.Rel S (xs.findSome? f) (ys.findSome? g) := by
  induction h with
  | nil => exact .none
  | @cons x y xs ys hxy _ ih =>
      have hfirst := hstep x y hxy
      rw [List.findSome?_cons, List.findSome?_cons]
      cases hf : f x with
      | none =>
          rw [hf] at hfirst
          cases hg : g y with
          | none => exact ih
          | some b =>
              rw [hg] at hfirst
              cases hfirst
      | some a =>
          rw [hf] at hfirst
          cases hg : g y with
          | none =>
              rw [hg] at hfirst
              cases hfirst
          | some b =>
              rw [hg] at hfirst
              exact hfirst

/-! ## Scopes -/

/-- An entry of a scope reads as one over strings. -/
structure EntryReads (pool : Pool) (entry : Ident × Symbol Ident)
    (text : String × Symbol String) : Prop where
  key : pool.text? entry.1 = some text.1
  symbol : entry.2.ReadsAs pool text.2

/-- The entries and the names of the functions read as those over strings. -/
structure Scope.ReadsAs (pool : Pool) (scope : Scope Ident) (text : Scope String) : Prop where
  entries : List.Forall₂ (EntryReads pool) scope.entries text.entries
  functionNames :
    List.Forall₂ (fun n s => pool.text? n = some s) scope.functionNames text.functionNames

namespace Scope.ReadsAs

variable {pool grown : Pool} {scope : Scope Ident} {text : Scope String} {key : Ident}
  {keyText : String}

theorem empty (pool : Pool) : Scope.empty.ReadsAs pool Scope.empty :=
  ⟨.nil, .nil⟩

theorem mono (hgrows : pool.Grows grown) (h : scope.ReadsAs pool text) :
    scope.ReadsAs grown text where
  entries := h.entries.imp fun _ _ hentry =>
    ⟨hgrows _ _ hentry.key, hentry.symbol.mono hgrows⟩
  functionNames := h.functionNames.imp fun _ _ hname => hgrows _ _ hname

theorem find? (h : scope.ReadsAs pool text) (hkey : pool.text? key = some keyText) :
    Option.Rel (Symbol.ReadsAs pool) (scope.find? key) (text.find? keyText) := by
  have hentries := h.entries
  unfold Scope.find?
  generalize scope.entries = entries, text.entries = texts at hentries ⊢
  induction hentries with
  | nil => exact .none
  | @cons entry other rest others hentry _ ih =>
      obtain ⟨k, s⟩ := entry
      obtain ⟨k', s'⟩ := other
      have hsame := Pool.eq_iff_of_text? hkey hentry.key
      rw [List.lookup_cons, List.lookup_cons]
      by_cases hk : key = k
      · have hk' : keyText = k' := hsame.mp hk
        simp only [hk, hk', beq_self_eq_true]
        exact .some hentry.symbol
      · have hk' : ¬ keyText = k' := fun heq => hk (hsame.mpr heq)
        have hne : (key == k) = false := beq_eq_false_iff_ne.mpr hk
        have hne' : (keyText == k') = false := beq_eq_false_iff_ne.mpr hk'
        simp only [hne, hne']
        exact ih

/-- A string that is not pooled is the key of nothing. -/
theorem find?_of_ident? (h : scope.ReadsAs pool text) (hkey : pool.ident? keyText = none) :
    text.find? keyText = none := by
  have hentries := h.entries
  rw [Scope.find?_eq_none_iff]
  generalize scope.entries = entries, text.entries = texts at hentries ⊢
  induction hentries with
  | nil => exact List.not_mem_nil
  | @cons entry other rest others hentry _ ih =>
      rw [List.map_cons, List.mem_cons, not_or]
      refine ⟨?_, ih⟩
      rintro rfl
      rw [(pool.ident?_iff _ _).mpr hentry.key] at hkey
      cases hkey

theorem hasFunction (h : scope.ReadsAs pool text) (hkey : pool.text? key = some keyText) :
    text.hasFunction keyText = scope.hasFunction key := by
  have hnames := h.functionNames
  unfold Scope.hasFunction
  generalize scope.functionNames = names, text.functionNames = texts at hnames ⊢
  induction hnames with
  | nil => rfl
  | @cons n s rest others hname _ ih =>
      have hsame := Pool.eq_iff_of_text? hkey hname
      rw [List.contains_cons, List.contains_cons, ih]
      congr 1
      rw [Bool.eq_iff_iff, beq_iff_eq, beq_iff_eq, hsame]

theorem markFunction (h : scope.ReadsAs pool text) (hkey : pool.text? key = some keyText) :
    (scope.markFunction key).ReadsAs pool (text.markFunction keyText) where
  entries := h.entries
  functionNames := by
    have hmem : key ∈ scope.functionNames ↔ keyText ∈ text.functionNames := by
      have hsame := h.hasFunction hkey
      simp only [Scope.hasFunction] at hsame
      rw [← List.contains_iff_mem, ← List.contains_iff_mem, hsame]
    change List.Forall₂ _ (scope.functionNames.insert key) (text.functionNames.insert keyText)
    by_cases hin : key ∈ scope.functionNames
    · rw [List.insert_of_mem hin, List.insert_of_mem (hmem.mp hin)]
      exact h.functionNames
    · rw [List.insert_of_not_mem hin, List.insert_of_not_mem fun hin' => hin (hmem.mpr hin')]
      exact .cons hkey h.functionNames

/-- A symbol is stored on both sides, or refused on both sides for the same one. -/
theorem declare (h : scope.ReadsAs pool text) (hkey : pool.text? key = some keyText)
    {s : Symbol Ident} {t : Symbol String} (hs : s.ReadsAs pool t) :
    (∃ rejection, scope.declare key s = .error rejection ∧
      ∀ read, pool.ReadBy read → text.declare keyText t = .error (rejection.map read)) ∨
    ∃ stored storedText, scope.declare key s = .ok stored ∧
      text.declare keyText t = .ok storedText ∧ stored.ReadsAs pool storedText := by
  have hfind := h.find? hkey
  unfold Scope.declare
  cases hold : scope.find? key with
  | some existing =>
      rw [hold] at hfind
      cases hold' : text.find? keyText with
      | none =>
          rw [hold'] at hfind
          cases hfind
      | some existingText =>
          rw [hold'] at hfind
          obtain ⟨hexisting⟩ := hfind
          left
          rw [Scope.insert_of_find? hold, Scope.insert_of_find? hold', ← hexisting.id_eq]
          refine ⟨_, rfl, fun read hread => ?_⟩
          rw [← hread _ _ hs.name]
          rfl
  | none =>
      rw [hold] at hfind
      cases hold' : text.find? keyText with
      | some existingText =>
          rw [hold'] at hfind
          cases hfind
      | none =>
          right
          have hstored : (scope.store key s hold).ReadsAs pool (text.store keyText t hold') :=
            ⟨.cons ⟨hkey, hs⟩ h.entries, h.functionNames⟩
          rw [Scope.insert_of_free hold, Scope.insert_of_free hold']
          refine ⟨_, _, rfl, rfl, ?_⟩
          rw [← hs.isFunction_eq]
          split
          · exact hstored.markFunction hs.name
          · exact hstored

theorem modify (h : scope.ReadsAs pool text) (hkey : pool.text? key = some keyText)
    {change : Symbol Ident → Symbol Ident} {changeText : Symbol String → Symbol String}
    (hchange : ∀ s t, s.ReadsAs pool t → (change s).ReadsAs pool (changeText t)) :
    (scope.modify key change).ReadsAs pool (text.modify keyText changeText) where
  entries := by
    refine List.rel_map ?_ h.entries
    rintro ⟨k, s⟩ ⟨k', t⟩ ⟨hk, hs⟩
    have hsame := Pool.eq_iff_of_text? hk hkey
    by_cases heq : k = key
    · dsimp only
      rw [if_pos heq, if_pos (hsame.mp heq)]
      exact ⟨hk, hchange s t hs⟩
    · dsimp only
      rw [if_neg heq, if_neg fun heq' => heq (hsame.mpr heq')]
      exact ⟨hk, hs⟩
  functionNames := h.functionNames

theorem byId? (h : scope.ReadsAs pool text) (id : SymbolId) :
    Option.Rel (Symbol.ReadsAs pool) (scope.byId? id) (text.byId? id) := by
  have hentries := h.entries
  change Option.Rel _ ((scope.entries.map Prod.snd).find? _) ((text.entries.map Prod.snd).find? _)
  generalize scope.entries = entries, text.entries = texts at hentries ⊢
  induction hentries with
  | nil => exact .none
  | @cons entry other rest others hentry _ ih =>
      rw [List.map_cons, List.map_cons, List.find?_cons, List.find?_cons, ← hentry.symbol.id_eq]
      cases hid : entry.2.id == id with
      | true => exact .some hentry.symbol
      | false => exact ih

end Scope.ReadsAs

/-! ## Levels -/

/-- As many levels, and each of them reads as the one over strings. -/
structure Levels.ReadsAs (pool : Pool) (levels : Levels Ident) (text : Levels String) : Prop where
  count : text.count = levels.count
  scope? : ∀ level, Option.Rel (Scope.ReadsAs pool) (levels.scope? level) (text.scope? level)

namespace Levels.ReadsAs

variable {pool grown : Pool} {levels : Levels Ident} {text : Levels String} {key : Ident}
  {keyText : String}

theorem fresh (pool : Pool) : Levels.fresh.ReadsAs pool Levels.fresh where
  count := rfl
  scope? := by
    intro level
    match level with
    | 0 => exact .some (.empty pool)
    | 1 => exact .some (.empty pool)
    | 2 => exact .some (.empty pool)
    | level + 3 => exact .none

theorem mono (hgrows : pool.Grows grown) (h : levels.ReadsAs pool text) :
    levels.ReadsAs grown text where
  count := h.count
  scope? := by
    intro level
    have hscope := h.scope? level
    generalize levels.scope? level = scope, text.scope? level = other at hscope ⊢
    cases hscope with
    | none => exact .none
    | some hreads => exact .some (hreads.mono hgrows)

theorem current_eq (h : levels.ReadsAs pool text) : text.current = levels.current :=
  congrArg (· - 1) h.count

theorem push (h : levels.ReadsAs pool text) : levels.push.ReadsAs pool text.push where
  count := by rw [count_push, count_push, h.count]
  scope? := by
    intro level
    rw [scope?_push, scope?_push, h.count]
    split
    · exact .some (.empty pool)
    · exact h.scope? level

theorem pop? (h : levels.ReadsAs pool text) :
    Option.Rel (Levels.ReadsAs pool) levels.pop? text.pop? := by
  have hnone : levels.pop? = none ↔ text.pop? = none := by
    rw [pop?_eq_none_iff, pop?_eq_none_iff, h.count]
  cases hpop : levels.pop? with
  | none =>
      rw [hnone.mp hpop]
      exact .none
  | some outer =>
      cases hpop' : text.pop? with
      | none =>
          rw [hnone.mpr hpop'] at hpop
          cases hpop
      | some outerText =>
          obtain ⟨hcount, hscope⟩ := pop?_eq_some hpop
          obtain ⟨hcount', hscope'⟩ := pop?_eq_some hpop'
          have hold := h.count
          have hsame : outerText.count = outer.count := by omega
          refine .some ⟨hsame, ?_⟩
          intro level
          rw [hscope, hscope', hsame]
          split
          · exact h.scope? level
          · exact .none

theorem set (h : levels.ReadsAs pool text) {scope : Scope Ident} {scopeText : Scope String}
    (hscope : scope.ReadsAs pool scopeText) {level : Nat} (hlevel : level < levels.scopes.size)
    (hlevel' : level < text.scopes.size) :
    (levels.set level scope hlevel).ReadsAs pool (text.set level scopeText hlevel') where
  count := by rw [count_set, count_set, h.count]
  scope? := by
    intro other
    rw [scope?_set, scope?_set]
    split
    · exact .some hscope
    · exact h.scope? other

theorem getElem (h : levels.ReadsAs pool text) {level : Nat}
    (hlevel : level < levels.scopes.size) (hlevel' : level < text.scopes.size) :
    levels.scopes[level].ReadsAs pool text.scopes[level] := by
  have hscope := h.scope? level
  rw [scope?_eq_some levels hlevel, scope?_eq_some text hlevel'] at hscope
  cases hscope with
  | some hreads => exact hreads

theorem at? (h : levels.ReadsAs pool text) (hkey : pool.text? key = some keyText) (level : Nat) :
    Option.Rel (Symbol.ReadsAs pool) (levels.at? level key) (text.at? level keyText) := by
  have hscope := h.scope? level
  unfold Levels.at?
  generalize levels.scope? level = scope, text.scope? level = other at hscope ⊢
  cases hscope with
  | none => exact .none
  | some hreads => exact hreads.find? hkey

theorem find? (h : levels.ReadsAs pool text) (hkey : pool.text? key = some keyText) (top : Nat)
    (version : Version) :
    Option.Rel (fun found other => found.1 = other.1 ∧ found.2.ReadsAs pool other.2)
      (levels.find? top version key) (text.find? top version keyText) := by
  refine findSome?_rel (R := Eq) ?_ (List.forall₂_refl _)
  rintro level _ rfl
  have hat := h.at? hkey level
  generalize levels.at? level key = found, text.at? level keyText = other at hat ⊢
  cases hat with
  | none => exact .none
  | some hreads => exact .some ⟨rfl, hreads⟩

/-- A lookup for a string that is not pooled finds nothing. -/
theorem find?_of_ident? (h : levels.ReadsAs pool text) (hkey : pool.ident? keyText = none)
    (top : Nat) (version : Version) : text.find? top version keyText = none := by
  rw [Levels.find?_eq_none_iff]
  intro level _
  have hscope := h.scope? level
  unfold Levels.at?
  generalize levels.scope? level = scope, text.scope? level = other at hscope ⊢
  cases hscope with
  | none => rfl
  | some hreads => exact hreads.find?_of_ident? hkey

theorem tiersHaveFunction (h : levels.ReadsAs pool text) (hkey : pool.text? key = some keyText)
    (version : Version) :
    text.tiersHaveFunction version keyText = levels.tiersHaveFunction version key := by
  unfold Levels.tiersHaveFunction
  congr 1
  funext level
  have hscope := h.scope? level
  generalize levels.scope? level = scope, text.scope? level = other at hscope ⊢
  cases hscope with
  | none => rfl
  | some hreads => exact hreads.hasFunction hkey

theorem byId? (h : levels.ReadsAs pool text) (id : SymbolId) :
    Option.Rel (Symbol.ReadsAs pool) (levels.byId? id) (text.byId? id) := by
  have hscopes : List.Forall₂ (Scope.ReadsAs pool) levels.scopes.toList text.scopes.toList :=
    List.forall₂_of_length_eq_of_get h.count.symm fun level hlevel hlevel' =>
      h.getElem hlevel hlevel'
  exact findSome?_rel (R := Scope.ReadsAs pool) (fun _ _ hreads => hreads.byId? id)
    (List.forall₂_reverse_iff.mpr hscopes)

/-- A symbol is stored on both sides, or refused on both sides for the same one. -/
theorem declare (h : levels.ReadsAs pool text) (hkey : pool.text? key = some keyText)
    {s : Symbol Ident} {t : Symbol String} (hs : s.ReadsAs pool t) {level : Nat}
    (hlevel : level < levels.scopes.size) (hlevel' : level < text.scopes.size) :
    (∃ rejection, levels.declare level hlevel key s = .error rejection ∧
      ∀ read, pool.ReadBy read →
        text.declare level hlevel' keyText t = .error (rejection.map read)) ∨
    ∃ stored storedText, levels.declare level hlevel key s = .ok stored ∧
      text.declare level hlevel' keyText t = .ok storedText ∧ stored.ReadsAs pool storedText := by
  unfold Levels.declare
  rcases (h.getElem hlevel hlevel').declare hkey hs with
    ⟨rejection, hdeclare, hdeclare'⟩ | ⟨scope, scopeText, hdeclare, hdeclare', hscope⟩
  · rw [hdeclare]
    refine .inl ⟨rejection, rfl, fun read hread => ?_⟩
    rw [hdeclare' read hread]
    rfl
  · rw [hdeclare, hdeclare']
    exact .inr ⟨_, _, rfl, rfl, h.set hscope hlevel hlevel'⟩

theorem modifyCurrent (h : levels.ReadsAs pool text) (hkey : pool.text? key = some keyText)
    {change : Symbol Ident → Symbol Ident} {changeText : Symbol String → Symbol String}
    (hchange : ∀ s t, s.ReadsAs pool t → (change s).ReadsAs pool (changeText t)) :
    (levels.modifyCurrent key change).ReadsAs pool (text.modifyCurrent keyText changeText) := by
  have hcurrent : text.scope? levels.current = some text.innermost := by
    rw [← h.current_eq]
    exact scope?_eq_some text text.current_lt
  have hinnermost := h.scope? levels.current
  rw [hcurrent, scope?_eq_some levels levels.current_lt] at hinnermost
  obtain ⟨hreads⟩ := hinnermost
  refine ⟨by rw [count_modifyCurrent, count_modifyCurrent, h.count], ?_⟩
  intro level
  rw [Levels.modifyCurrent, Levels.modifyCurrent, scope?_set, scope?_set, h.current_eq]
  split
  · exact .some (hreads.modify hkey hchange)
  · exact h.scope? level

end Levels.ReadsAs

end ShaderScope
