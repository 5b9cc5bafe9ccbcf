import ShaderScope.Proofs.Effects

/-!
# The ledger of a run

A ledger writes down what a run stores and which scopes it opens and closes. Every
scope gets a number of its own, so that a scope is told from one that is opened at
the same level later on. A stored declaration is live as long as its scope has not
been closed, and for good if it stands in a tier.

The levels of a table hold exactly the live declarations of the ledger. This is
shown for each thing that an action can do, and from there for runs.
-/

namespace ShaderScope

/-- A declaration that was stored, with the changes made to it since then. -/
structure Record where
  id : SymbolId
  key : Ident
  level : Nat
  scope : Option Nat
  symbol : Symbol Ident

/-- The scopes that were opened, those of them that are open, outermost first, and
the declarations that were stored, newest first. -/
structure Ledger where
  opened : Nat
  running : List Nat
  records : List Record

namespace Ledger

/-- The ledger before the first step. -/
def blank : Ledger :=
  ⟨0, [], []⟩

/-- The number of the open scope at a level. Tiers have none. -/
def scopeAt (ledger : Ledger) (level : Nat) : Option Nat :=
  if level ≤ lastTierLevel then none else ledger.running[level - globalLevel]?

/-- Stored in a tier, or in a scope that has not been closed. -/
def Live (ledger : Ledger) (r : Record) : Prop :=
  r.level ≤ lastTierLevel ∨ ∃ n ∈ ledger.running, r.scope = some n

instance (ledger : Ledger) (r : Record) : Decidable (ledger.Live r) :=
  inferInstanceAs (Decidable (r.level ≤ lastTierLevel ∨ ∃ n ∈ ledger.running, r.scope = some n))

/-- Open a scope with the next number. -/
def opens (ledger : Ledger) : Ledger :=
  { ledger with opened := ledger.opened + 1, running := ledger.running ++ [ledger.opened] }

/-- Close the innermost scope. -/
def closes (ledger : Ledger) : Ledger :=
  { ledger with running := ledger.running.dropLast }

/-- Store a declaration in what is open at its level. -/
def stores (ledger : Ledger) (id : SymbolId) (key : Ident) (level : Nat)
    (symbol : Symbol Ident) : Ledger :=
  { ledger with records := ⟨id, key, level, ledger.scopeAt level, symbol⟩ :: ledger.records }

/-- Change the symbol of a record if it is the live one under a key at a level. -/
def alter (ledger : Ledger) (level : Nat) (key : Ident) (change : Symbol Ident → Symbol Ident)
    (r : Record) : Record :=
  if ledger.Live r ∧ r.level = level ∧ r.key = key then { r with symbol := change r.symbol }
  else r

/-- Change the live declaration under a key at a level. -/
def alters (ledger : Ledger) (level : Nat) (key : Ident)
    (change : Symbol Ident → Symbol Ident) : Ledger :=
  { ledger with records := ledger.records.map (ledger.alter level key change) }

/-- Write down what an action did, going by its answer. -/
def note (ledger : Ledger) (table : Table) (action : Action Ident) : Outcome Ident → Ledger
  | .opened => ledger.opens
  | .closed true => ledger.closes
  | .declared (.ok id) =>
      match table.attempt? action with
      | none => ledger
      | some attempt => ledger.stores id attempt.key attempt.level attempt.symbol
  | .edited (some _) =>
      match action with
      | .edit key edits => ledger.alters table.current key (fun s => s.editAll edits)
      | _ => ledger
  | _ => ledger

/-- The ledger after a run. -/
def through (ledger : Ledger) (table : Table) : List (Action Ident) → Ledger
  | [] => ledger
  | action :: rest =>
      (ledger.note table action (table.perform action).1).through (table.perform action).2 rest

/-! ## Altered records -/

theorem note_edited (ledger : Ledger) (table : Table) (key : Ident)
    (edits : List (Declaration.Edit Ident)) (s : Symbol Ident) :
    ledger.note table (.edit key edits) (.edited (some s)) =
      ledger.alters table.current key (fun s => s.editAll edits) :=
  rfl

section

variable (ledger : Ledger) (level : Nat) (key : Ident) (change : Symbol Ident → Symbol Ident)
  (r : Record)

theorem level_alter : (ledger.alter level key change r).level = r.level := by
  unfold alter
  split <;> rfl

theorem scope_alter : (ledger.alter level key change r).scope = r.scope := by
  unfold alter
  split <;> rfl

theorem key_alter : (ledger.alter level key change r).key = r.key := by
  unfold alter
  split <;> rfl

theorem id_alter : (ledger.alter level key change r).id = r.id := by
  unfold alter
  split <;> rfl

theorem live_alter : ledger.Live (ledger.alter level key change r) ↔ ledger.Live r := by
  rw [Live, Live, level_alter, scope_alter]

end

theorem symbol_alter {ledger : Ledger} {r : Record} (h : ledger.Live r) (level : Nat)
    (key : Ident) (change : Symbol Ident → Symbol Ident) :
    (ledger.alter level key change r).symbol =
      if r.level = level ∧ r.key = key then change r.symbol else r.symbol := by
  unfold alter
  simp only [h, true_and]
  split <;> rfl

/-- What a change leaves alone in every symbol, altering leaves alone in every record. -/
theorem apply_symbol_alter {α : Type} {f : Symbol Ident → α}
    {change : Symbol Ident → Symbol Ident} (hchange : ∀ s, f (change s) = f s) (ledger : Ledger)
    (level : Nat) (key : Ident) (r : Record) :
    f (ledger.alter level key change r).symbol = f r.symbol := by
  unfold alter
  split
  · exact hchange r.symbol
  · rfl

/-! ## Numbers of scopes -/

/-- The scope of a record has been opened, and if it is open, then at the level of
the record. -/
def Placed (ledger : Ledger) (r : Record) : Prop :=
  r.level ≤ lastTierLevel ∨ ∃ n < ledger.opened, r.scope = some n ∧
    ∀ place, ledger.running[place]? = some n → r.level = globalLevel + place

/-- Scopes have numbers of their own, and records stand in scopes that there were. -/
structure Consistent (ledger : Ledger) : Prop where
  known : ∀ n ∈ ledger.running, n < ledger.opened
  nodup : ledger.running.Nodup
  placed : ∀ r ∈ ledger.records, ledger.Placed r
  identified : ∀ r ∈ ledger.records, r.symbol.id = r.id

/-- A level above the tiers belongs to an open scope. -/
theorem scopeAt_cases {ledger : Ledger} {level : Nat}
    (h : level < globalLevel + ledger.running.length) :
    level ≤ lastTierLevel ∨ ∃ place n, level = globalLevel + place ∧
      ledger.scopeAt level = some n ∧ ledger.running[place]? = some n := by
  by_cases htier : level ≤ lastTierLevel
  · exact .inl htier
  · have hglobal : globalLevel = lastTierLevel + 1 := rfl
    have hopen : level - globalLevel < ledger.running.length := by omega
    have hat := List.getElem?_eq_getElem hopen
    refine .inr ⟨level - globalLevel, ledger.running[level - globalLevel], by omega, ?_, hat⟩
    rw [scopeAt, if_neg htier, hat]

namespace Consistent

variable {ledger : Ledger}

theorem blank : Consistent .blank where
  known := nofun
  nodup := List.nodup_nil
  placed := nofun
  identified := nofun

/-- The record of a scope that is open has the level of the scope. -/
theorem level_of_scope (h : ledger.Consistent) {r : Record} (hr : r ∈ ledger.records) {n : Nat}
    (hscope : r.scope = some n) {place : Nat} (hat : ledger.running[place]? = some n) :
    r.level ≤ lastTierLevel ∨ r.level = globalLevel + place := by
  rcases h.placed r hr with htier | ⟨m, _, hscope', hplace⟩
  · exact .inl htier
  · rw [hscope] at hscope'
    cases hscope'
    exact .inr (hplace place hat)

/-- The number of a new scope belongs to no record yet. -/
theorem live_opens_iff (h : ledger.Consistent) {r : Record} (hr : r ∈ ledger.records) :
    ledger.opens.Live r ↔ ledger.Live r := by
  constructor
  · rintro (htier | ⟨n, hn, hscope⟩)
    · exact .inl htier
    · rcases List.mem_append.mp hn with hn | hn
      · exact .inr ⟨n, hn, hscope⟩
      · rcases h.placed r hr with htier | ⟨m, hm, hscope', _⟩
        · exact .inl htier
        · rw [hscope, List.mem_singleton.mp hn] at hscope'
          cases hscope'
          exact absurd hm (Nat.lt_irrefl _)
  · rintro (htier | ⟨n, hn, hscope⟩)
    · exact .inl htier
    · exact .inr ⟨n, List.mem_append_left _ hn, hscope⟩

theorem opens (h : ledger.Consistent) : ledger.opens.Consistent where
  known := by
    intro n hn
    rcases List.mem_append.mp hn with hn | hn
    · exact Nat.lt_succ_of_lt (h.known n hn)
    · rw [List.mem_singleton.mp hn]
      exact Nat.lt_succ_self _
  nodup := by
    refine List.nodup_append.mpr ⟨h.nodup, by simp, ?_⟩
    intro n hn m hm heq
    rw [heq, List.mem_singleton.mp hm] at hn
    exact absurd (h.known _ hn) (Nat.lt_irrefl _)
  placed := by
    intro r hr
    rcases h.placed r hr with htier | ⟨n, hn, hscope, hplace⟩
    · exact .inl htier
    · refine .inr ⟨n, Nat.lt_succ_of_lt hn, hscope, ?_⟩
      intro place hat
      rw [Ledger.opens, List.getElem?_append] at hat
      split at hat
      · exact hplace place hat
      · have hmem := List.mem_of_getElem? hat
        rw [List.mem_singleton.mp hmem] at hn
        exact absurd hn (Nat.lt_irrefl _)
  identified := h.identified

section

variable {inner : List Nat} {last : Nat} (hrunning : ledger.running = inner ++ [last])

include hrunning

theorem running_closes : ledger.closes.running = inner := by
  rw [Ledger.closes, hrunning, List.dropLast_concat]

/-- The live records that remain are those below the level of the closed scope. -/
theorem live_closes_iff (h : ledger.Consistent) {r : Record} (hr : r ∈ ledger.records) :
    ledger.closes.Live r ↔ ledger.Live r ∧ r.level < globalLevel + inner.length := by
  have hglobal : globalLevel = lastTierLevel + 1 := rfl
  unfold Ledger.Live
  rw [running_closes hrunning, hrunning]
  constructor
  · rintro (htier | ⟨n, hn, hscope⟩)
    · exact ⟨.inl htier, by omega⟩
    · refine ⟨.inr ⟨n, List.mem_append_left _ hn, hscope⟩, ?_⟩
      obtain ⟨place, hlt, hat⟩ := List.getElem_of_mem hn
      have hplace : ledger.running[place]? = some n := by
        rw [hrunning, List.getElem?_append_left hlt, List.getElem?_eq_getElem hlt, hat]
      rcases h.level_of_scope hr hscope hplace with htier | hlevel
      · omega
      · omega
  · rintro ⟨htier | ⟨n, hn, hscope⟩, hlevel⟩
    · exact .inl htier
    · rcases List.mem_append.mp hn with hn | hn
      · exact .inr ⟨n, hn, hscope⟩
      · have hplace : ledger.running[inner.length]? = some n := by
          rw [hrunning, List.mem_singleton.mp hn, List.getElem?_concat_length]
        rcases h.level_of_scope hr hscope hplace with htier | hlast
        · exact .inl htier
        · omega

theorem closes (h : ledger.Consistent) : ledger.closes.Consistent where
  known := by
    intro n hn
    rw [running_closes hrunning] at hn
    apply h.known n
    rw [hrunning]
    exact List.mem_append_left _ hn
  nodup := by
    have hnodup := h.nodup
    rw [hrunning] at hnodup
    rw [running_closes hrunning]
    exact (List.nodup_append.mp hnodup).1
  placed := by
    intro r hr
    rcases h.placed r hr with htier | ⟨n, hn, hscope, hplace⟩
    · exact .inl htier
    · refine .inr ⟨n, hn, hscope, ?_⟩
      intro place hat
      apply hplace place
      rw [running_closes hrunning] at hat
      have hlt := (List.getElem?_eq_some_iff.mp hat).1
      rw [hrunning, List.getElem?_append_left hlt, hat]
  identified := h.identified

end

section

variable {level : Nat} (hlevel : level < globalLevel + ledger.running.length)
  (key : Ident) (symbol : Symbol Ident)

include hlevel

theorem live_stored :
    ledger.Live ⟨symbol.id, key, level, ledger.scopeAt level, symbol⟩ := by
  rcases scopeAt_cases hlevel with htier | ⟨place, n, _, hscope, hn⟩
  · exact .inl htier
  · exact .inr ⟨n, List.mem_of_getElem? hn, hscope⟩

theorem stores (h : ledger.Consistent) :
    (ledger.stores symbol.id key level symbol).Consistent where
  known := h.known
  nodup := h.nodup
  placed := by
    refine List.forall_mem_cons.mpr ⟨?_, h.placed⟩
    rcases scopeAt_cases hlevel with htier | ⟨place, n, hl, hscope, hn⟩
    · exact .inl htier
    · refine .inr ⟨n, h.known n (List.mem_of_getElem? hn), hscope, ?_⟩
      intro other hother
      have hlt := (List.getElem?_eq_some_iff.mp hn).1
      have hsame : place = other := (List.getElem?_inj hlt h.nodup).mp (hn.trans hother.symm)
      rw [← hsame]
      exact hl
  identified := List.forall_mem_cons.mpr ⟨rfl, h.identified⟩

end

theorem alters (h : ledger.Consistent) (level : Nat) (key : Ident)
    {change : Symbol Ident → Symbol Ident} (hid : ∀ s, (change s).id = s.id) :
    (ledger.alters level key change).Consistent where
  known := h.known
  nodup := h.nodup
  placed := by
    refine List.forall_mem_map.mpr fun r hr => ?_
    rw [Placed, level_alter, scope_alter]
    exact h.placed r hr
  identified := by
    refine List.forall_mem_map.mpr fun r hr => ?_
    rw [apply_symbol_alter hid, id_alter]
    exact h.identified r hr

end Consistent

end Ledger

/-! ## Levels and ledgers -/

/-- The levels of a table hold what the ledger has as live. -/
structure Tracks (ledger : Ledger) (levels : Levels Ident) : Prop where
  consistent : ledger.Consistent
  count : levels.count = globalLevel + ledger.running.length
  stands : ∀ level key s, levels.at? level key = some s ↔
    ∃ r ∈ ledger.records, ledger.Live r ∧ r.level = level ∧ r.key = key ∧ r.symbol = s
  alone : ledger.records.Pairwise fun r other =>
    ledger.Live r → ledger.Live other → r.key = other.key → r.level ≠ other.level

namespace Tracks

variable {ledger : Ledger} {levels : Levels Ident}

theorem blank : Tracks .blank .fresh where
  consistent := Ledger.Consistent.blank
  count := rfl
  stands := by
    intro level key s
    rw [Levels.at?_fresh]
    constructor
    · nofun
    · rintro ⟨r, hr, _⟩
      cases hr
  alone := List.Pairwise.nil

theorem opens (h : Tracks ledger levels) : Tracks ledger.opens levels.push where
  consistent := h.consistent.opens
  count := by
    rw [Levels.count_push, h.count, Ledger.opens, List.length_append]
    rfl
  stands := by
    intro level key s
    rw [Levels.at?_push, h.stands]
    constructor
    · rintro ⟨r, hr, hlive, hrest⟩
      exact ⟨r, hr, (h.consistent.live_opens_iff hr).mpr hlive, hrest⟩
    · rintro ⟨r, hr, hlive, hrest⟩
      exact ⟨r, hr, (h.consistent.live_opens_iff hr).mp hlive, hrest⟩
  alone := by
    refine h.alone.imp_of_mem ?_
    intro r other hr hother halone hlive hlive'
    exact halone ((h.consistent.live_opens_iff hr).mp hlive)
      ((h.consistent.live_opens_iff hother).mp hlive')

theorem closes (h : Tracks ledger levels) {outer : Levels Ident}
    (hpop : levels.pop? = some outer) : Tracks ledger.closes outer := by
  have hcount := (Levels.pop?_eq_some hpop).1
  have htiers := outer.globalLevel_le_count
  have hopen := h.count
  obtain ⟨inner, last, hrunning⟩ : ∃ inner last, ledger.running = inner ++ [last] := by
    rcases List.eq_nil_or_concat ledger.running with hnil | ⟨inner, last, hconcat⟩
    · rw [hnil, List.length_nil] at hopen
      omega
    · exact ⟨inner, last, by rw [hconcat, List.concat_eq_append]⟩
  rw [hrunning, List.length_append, List.length_singleton] at hopen
  have houter : outer.count = globalLevel + inner.length := by omega
  have hlive : ∀ r ∈ ledger.records,
      (ledger.closes.Live r ↔ ledger.Live r ∧ r.level < outer.count) := by
    intro r hr
    rw [houter]
    exact Ledger.Consistent.live_closes_iff hrunning h.consistent hr
  refine ⟨Ledger.Consistent.closes hrunning h.consistent, ?_, ?_, ?_⟩
  · rw [Ledger.Consistent.running_closes hrunning, houter]
  · intro level key s
    rw [Levels.at?_pop? hpop]
    constructor
    · intro hat
      split at hat
      · next hlevel =>
          obtain ⟨r, hr, hr', rfl, hk, hs⟩ := (h.stands level key s).mp hat
          exact ⟨r, hr, (hlive r hr).mpr ⟨hr', hlevel⟩, rfl, hk, hs⟩
      · cases hat
    · rintro ⟨r, hr, hr', rfl, hk, hs⟩
      obtain ⟨hbefore, hlevel⟩ := (hlive r hr).mp hr'
      rw [if_pos hlevel]
      exact (h.stands r.level key s).mpr ⟨r, hr, hbefore, rfl, hk, hs⟩
  · refine h.alone.imp_of_mem ?_
    intro r other hr hother halone hr' hother'
    exact halone ((hlive r hr).mp hr').1 ((hlive other hother).mp hother').1

theorem stores (h : Tracks ledger levels) {level : Nat} {hlevel : level < levels.scopes.size}
    {key : Ident} {symbol : Symbol Ident} {after : Levels Ident}
    (hdeclare : levels.declare level hlevel key symbol = .ok after) :
    Tracks (ledger.stores symbol.id key level symbol) after := by
  obtain ⟨hfree, hcount, hat⟩ := Levels.declare_eq_ok hdeclare
  have hbound : level < globalLevel + ledger.running.length := h.count ▸ hlevel
  have hlive := Ledger.Consistent.live_stored hbound key symbol
  -- The place is free, so no live record has the level and the key.
  have halone : ∀ r ∈ ledger.records, ledger.Live r → r.level = level → r.key ≠ key := by
    intro r hr hr' hl hk
    have hsome := (h.stands level key r.symbol).mpr ⟨r, hr, hr', hl, hk, rfl⟩
    rw [hfree] at hsome
    cases hsome
  refine ⟨h.consistent.stores hbound key symbol, ?_, ?_, ?_⟩
  · rw [hcount, h.count]
    rfl
  · intro l k s
    rw [hat]
    constructor
    · intro hsome
      split at hsome
      · next hplace =>
          obtain ⟨rfl, rfl⟩ := hplace
          exact ⟨_, List.mem_cons_self, hlive, rfl, rfl, Option.some.inj hsome⟩
      · obtain ⟨r, hr, hrest⟩ := (h.stands l k s).mp hsome
        exact ⟨r, List.mem_cons_of_mem _ hr, hrest⟩
    · rintro ⟨r, hr, hr', hl, hk, hs⟩
      rcases List.mem_cons.mp hr with rfl | hmem
      · rw [if_pos ⟨hl.symm, hk.symm⟩, ← hs]
      · rw [if_neg]
        · exact (h.stands l k s).mpr ⟨r, hmem, hr', hl, hk, hs⟩
        · rintro ⟨rfl, rfl⟩
          exact halone r hmem hr' hl hk
  · apply List.pairwise_cons.mpr
    refine ⟨?_, h.alone⟩
    intro r hr _ hr' hk hl
    exact halone r hr hr' hl.symm hk.symm

theorem alters (h : Tracks ledger levels) (key : Ident)
    {change : Symbol Ident → Symbol Ident} (hid : ∀ s, (change s).id = s.id) :
    Tracks (ledger.alters levels.current key change) (levels.modifyCurrent key change) where
  consistent := h.consistent.alters _ _ hid
  count := by
    rw [Levels.count_modifyCurrent, h.count]
    rfl
  stands := by
    intro level k s
    rw [Levels.at?_modifyCurrent]
    constructor
    · intro hsome
      obtain ⟨before, hbefore, hs⟩ : ∃ before, levels.at? level k = some before ∧
          (if level = levels.current ∧ k = key then change before else before) = s := by
        split at hsome
        · next hplace =>
            obtain ⟨before, hbefore, hs⟩ := Option.map_eq_some_iff.mp hsome
            exact ⟨before, hbefore, (if_pos hplace).trans hs⟩
        · next hplace => exact ⟨s, hsome, if_neg hplace⟩
      obtain ⟨r, hr, hlive, rfl, rfl, rfl⟩ := (h.stands level k before).mp hbefore
      rw [← Ledger.symbol_alter hlive] at hs
      exact ⟨_, List.mem_map_of_mem hr, (ledger.live_alter _ _ _ r).mpr hlive,
        ledger.level_alter _ _ _ r, ledger.key_alter _ _ _ r, hs⟩
    · rintro ⟨altered, hmem, hlive, hl, hk, rfl⟩
      obtain ⟨r, hr, rfl⟩ := List.mem_map.mp hmem
      rw [Ledger.level_alter] at hl
      rw [Ledger.key_alter] at hk
      have hbefore := (ledger.live_alter _ _ _ r).mp hlive
      subst hl hk
      rw [(h.stands r.level r.key r.symbol).mpr ⟨r, hr, hbefore, rfl, rfl, rfl⟩,
        Ledger.symbol_alter hbefore]
      split <;> rfl
  alone := by
    apply List.pairwise_map.mpr
    refine h.alone.imp ?_
    intro r other halone hr hother hkey
    rw [Ledger.level_alter, Ledger.level_alter]
    rw [Ledger.key_alter, Ledger.key_alter] at hkey
    exact halone ((ledger.live_alter _ _ _ r).mp hr)
      ((ledger.live_alter _ _ _ other).mp hother) hkey

/-! ## Runs -/

/-- One step of the induction over runs: whatever an action does, the note about it
says the same. -/
theorem note {table after : Table} {action : Action Ident} {outcome : Outcome Ident}
    (h : Tracks ledger table.levels) (heffect : table.Effect action outcome after) :
    Tracks (ledger.note table action outcome) after.levels := by
  cases heffect with
  | opened => exact h.opens
  | closed hpop => exact h.closes hpop
  | stored hattempt hdeclare =>
      have hnote := h.stores hdeclare
      simp only [Ledger.note, hattempt]
      exact hnote
  | edited hat =>
      rw [Ledger.note_edited]
      exact h.alters _ (fun s => s.id_editAll _)
  | kept _ => exact h
  | refused _ _ => exact h
  | unresolved _ => exact h
  | missed _ => exact h
  | defaultSet _ => exact h
  | defaultLeft _ => exact h
  | interned _ => exact h

theorem through {table : Table} (h : Tracks ledger table.levels) (actions : List (Action Ident)) :
    Tracks (ledger.through table actions) (table.after actions).levels := by
  induction actions generalizing ledger table with
  | nil => exact h
  | cons action rest ih =>
      rw [Ledger.through, Table.after_cons]
      exact ih (h.note (table.effect_perform action))

end Tracks

end ShaderScope
