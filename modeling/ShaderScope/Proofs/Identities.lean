import Mathlib.Data.List.Nodup
import ShaderScope.Proofs.Ledger
import ShaderScope.Proofs.SameAnswers

/-!
# Identities of symbols

A table numbers the declarations that it stores, from one on and in order. As long as
the numbers last, an identity belongs to one record of the ledger. A question by
identity is answered from that record while its scope is open, and never again after
the scope has been closed.
-/

namespace ShaderScope

/-! ## Ledgers over steps -/

/-- Changes in place leave the identity and the name of a symbol as they are. -/
def Step.KeepsIdentity : Step → Prop
  | .act _ => True
  | .alter _ change => ∀ s : Symbol Ident, (change s).id = s.id ∧ (change s).name = s.name

namespace Ledger

/-- Write down what a step did. -/
def noteStep (ledger : Ledger) (table : Table) : Step → Ledger
  | .act action => ledger.note table action (table.perform action).1
  | .alter key change => ledger.alters table.current key change

/-- The ledger after several steps. -/
def throughSteps (ledger : Ledger) (table : Table) : List Step → Ledger
  | [] => ledger
  | step :: rest => (ledger.noteStep table step).throughSteps (table.step step) rest

theorem throughSteps_append (ledger : Ledger) (table : Table) (steps later : List Step) :
    ledger.throughSteps table (steps ++ later) =
      (ledger.throughSteps table steps).throughSteps (table.afterSteps steps) later := by
  induction steps generalizing ledger table with
  | nil => rfl
  | cons step rest ih =>
      rw [List.cons_append, throughSteps, ih]
      rfl

theorem count_note {ledger : Ledger} {table after : Table} {action : Action Ident}
    {outcome : Outcome Ident} (heffect : table.Effect action outcome after)
    (h : table.levels.count = globalLevel + ledger.running.length) :
    after.levels.count = globalLevel + (ledger.note table action outcome).running.length := by
  cases heffect with
  | opened =>
      change table.levels.push.count = globalLevel + (ledger.running ++ [ledger.opened]).length
      rw [Levels.count_push, h, List.length_append, List.length_singleton, Nat.add_assoc]
  | @closed levels hpop =>
      change levels.count = globalLevel + ledger.running.dropLast.length
      have hcount := (Levels.pop?_eq_some hpop).1
      have htiers := levels.globalLevel_le_count
      rw [List.length_dropLast]
      omega
  | stored hattempt hdeclare =>
      simp only [note, hattempt]
      exact (Levels.declare_eq_ok hdeclare).2.1.trans h
  | edited hat => exact (Levels.count_modifyCurrent _ _ _).trans h
  | _ => exact h

/-- A ledger has the scopes open that the table has, whatever is done to symbols. -/
theorem count_throughSteps {ledger : Ledger} {table : Table} (steps : List Step)
    (h : table.levels.count = globalLevel + ledger.running.length) :
    (table.afterSteps steps).levels.count =
      globalLevel + (ledger.throughSteps table steps).running.length := by
  induction steps generalizing ledger table with
  | nil => exact h
  | cons step rest ih =>
      apply ih
      cases step with
      | act action => exact count_note (table.effect_perform action) h
      | alter key change => exact (Levels.count_modifyCurrent _ _ _).trans h

/-- The later ledger has all records of this one. What changes about them is at most
their symbols, and a record that is not live stays so. -/
def Continues (ledger later : Ledger) : Prop :=
  ∀ r ∈ ledger.records, ∃ r' ∈ later.records, r'.id = r.id ∧ (later.Live r' → ledger.Live r)

namespace Continues

variable {ledger later latest : Ledger}

theorem refl (ledger : Ledger) : ledger.Continues ledger :=
  fun r hr => ⟨r, hr, rfl, id⟩

theorem trans (h : ledger.Continues later) (h' : later.Continues latest) :
    ledger.Continues latest := by
  intro r hr
  obtain ⟨r', hr', hid, hlive⟩ := h r hr
  obtain ⟨r'', hr'', hid', hlive'⟩ := h' r' hr'
  exact ⟨r'', hr'', hid'.trans hid, hlive ∘ hlive'⟩

theorem opens (h : ledger.Consistent) : ledger.Continues ledger.opens :=
  fun r hr => ⟨r, hr, rfl, (h.live_opens_iff hr).mp⟩

theorem closes (ledger : Ledger) : ledger.Continues ledger.closes := by
  intro r hr
  refine ⟨r, hr, rfl, ?_⟩
  rintro (htier | ⟨n, hn, hscope⟩)
  · exact .inl htier
  · exact .inr ⟨n, ledger.running.dropLast_subset hn, hscope⟩

theorem stores (ledger : Ledger) (id : SymbolId) (key : Ident) (level : Nat)
    (symbol : Symbol Ident) : ledger.Continues (ledger.stores id key level symbol) :=
  fun r hr => ⟨r, List.mem_cons_of_mem _ hr, rfl, fun hlive => hlive⟩

theorem alters (ledger : Ledger) (level : Nat) (key : Ident)
    (change : Symbol Ident → Symbol Ident) : ledger.Continues (ledger.alters level key change) :=
  fun r hr => ⟨_, List.mem_map_of_mem hr, ledger.id_alter level key change r,
    (ledger.live_alter level key change r).mp⟩

theorem note (h : ledger.Consistent) {table after : Table} {action : Action Ident}
    {outcome : Outcome Ident} (heffect : table.Effect action outcome after) :
    ledger.Continues (ledger.note table action outcome) := by
  cases heffect with
  | opened => exact opens h
  | closed hpop => exact closes ledger
  | stored hattempt hdeclare =>
      simp only [Ledger.note, hattempt]
      exact stores ledger _ _ _ _
  | edited hat =>
      rw [note_edited]
      exact alters ledger _ _ _
  | _ => exact refl ledger

theorem noteStep (h : ledger.Consistent) (table : Table) (step : Step) :
    ledger.Continues (ledger.noteStep table step) := by
  cases step with
  | act action => exact note h (table.effect_perform action)
  | alter key change => exact alters ledger _ _ _

end Continues

end Ledger

namespace Tracks

variable {ledger : Ledger} {table : Table}

theorem noteStep (h : Tracks ledger table.levels) {step : Step} (hstep : step.KeepsIdentity) :
    Tracks (ledger.noteStep table step) (table.step step).levels := by
  cases step with
  | act action => exact h.note (table.effect_perform action)
  | alter key change => exact h.alters key fun s => (hstep s).1

theorem throughSteps (h : Tracks ledger table.levels) {steps : List Step}
    (hsteps : ∀ step ∈ steps, step.KeepsIdentity) :
    Tracks (ledger.throughSteps table steps) (table.afterSteps steps).levels := by
  induction steps generalizing ledger table with
  | nil => exact h
  | cons step rest ih =>
      obtain ⟨hstep, hrest⟩ := List.forall_mem_cons.mp hsteps
      exact ih (h.noteStep hstep) hrest

theorem continues_throughSteps (h : Tracks ledger table.levels) {steps : List Step}
    (hsteps : ∀ step ∈ steps, step.KeepsIdentity) :
    ledger.Continues (ledger.throughSteps table steps) := by
  induction steps generalizing ledger table with
  | nil => exact .refl ledger
  | cons step rest ih =>
      obtain ⟨hstep, hrest⟩ := List.forall_mem_cons.mp hsteps
      have hfirst : ledger.Continues (ledger.noteStep table step) :=
        .noteStep h.consistent table step
      exact hfirst.trans (ih (h.noteStep hstep) hrest)

end Tracks

/-! ## What a run stores -/

/-- A declaration that has been stored: the identity that was answered, the name, and
the level where it was stored. -/
structure Deposit where
  id : SymbolId
  name : Ident
  level : Nat

/-- What a record says about the declaration that it was written for. -/
def Record.deposit (r : Record) : Deposit :=
  ⟨r.id, r.symbol.name, r.level⟩

namespace Table

/-- What an action has stored, going by its answer. -/
def depositOf (table : Table) (action : Action Ident) : Outcome Ident → Option Deposit
  | .declared (.ok id) =>
      (table.attempt? action).map fun attempt => ⟨id, attempt.symbol.name, attempt.level⟩
  | _ => none

/-- What a step stores. -/
def deposit? (table : Table) : Step → Option Deposit
  | .act action => table.depositOf action (table.perform action).1
  | .alter _ _ => none

/-- What a run stores, from the first declaration to the last. -/
def deposits (table : Table) : List Step → List Deposit
  | [] => []
  | step :: rest => (table.deposit? step).toList ++ (table.step step).deposits rest

theorem deposits_append (table : Table) (steps later : List Step) :
    table.deposits (steps ++ later) =
      table.deposits steps ++ (table.afterSteps steps).deposits later := by
  induction steps generalizing table with
  | nil => rfl
  | cons step rest ih =>
      rw [List.cons_append, deposits, ih, ← List.append_assoc]
      rfl

theorem length_deposits_le (table : Table) (steps : List Step) :
    (table.deposits steps).length ≤ steps.length := by
  induction steps generalizing table with
  | nil => exact Nat.le_refl 0
  | cons step rest ih =>
      have hrest := ih (table.step step)
      have hfirst := Option.length_toList_le (o := table.deposit? step)
      rw [deposits, List.length_append, List.length_cons]
      omega

variable {table : Table}

/-- Whatever is to be stored gets the next identity. -/
theorem id_of_attempt? {action : Action Ident} {attempt : Attempt table}
    (hattempt : table.attempt? action = some attempt) : attempt.symbol.id = table.nextId := by
  cases action with
  | declare name declaration =>
      cases hattempt
      rfl
  | rebind key version =>
      obtain ⟨hit, -, rfl⟩ := Option.map_eq_some_iff.mp hattempt
      rfl
  | declareBuiltin tier name declaration =>
      cases hattempt
      rfl
  | _ => cases hattempt

/-- A stored declaration takes the next number, and nothing else does. -/
theorem depositOf_cases {after : Table} {action : Action Ident} {outcome : Outcome Ident}
    (heffect : table.Effect action outcome after) :
    (∃ d, table.depositOf action outcome = some d ∧ d.id = table.nextId ∧
      after.nextNumber = table.nextNumber + 1) ∨
    (table.depositOf action outcome = none ∧ after.nextNumber = table.nextNumber) := by
  cases heffect with
  | @stored _ attempt _ hattempt hdeclare =>
      refine .inl ⟨⟨attempt.symbol.id, attempt.symbol.name, attempt.level⟩, ?_,
        id_of_attempt? hattempt, rfl⟩
      rw [depositOf, hattempt]
      rfl
  | _ => exact .inr ⟨rfl, rfl⟩

theorem deposit?_cases (table : Table) (step : Step) :
    (∃ d, table.deposit? step = some d ∧ d.id = table.nextId ∧
      (table.step step).nextNumber = table.nextNumber + 1) ∨
    (table.deposit? step = none ∧ (table.step step).nextNumber = table.nextNumber) := by
  cases step with
  | act action => exact depositOf_cases (table.effect_perform action)
  | alter key change => exact .inr ⟨rfl, rfl⟩

theorem nextNumber_afterSteps (table : Table) (steps : List Step) :
    (table.afterSteps steps).nextNumber =
      table.nextNumber + UInt32.ofNat (table.deposits steps).length := by
  induction steps generalizing table with
  | nil => exact (UInt32.add_zero table.nextNumber).symm
  | cons step rest ih =>
      rw [afterSteps_cons, ih, deposits]
      rcases table.deposit?_cases step with ⟨d, hd, -, hnext⟩ | ⟨hd, hnext⟩
      · rw [hd, hnext, Option.toList_some, List.singleton_append, List.length_cons,
          Nat.add_comm _ 1, UInt32.ofNat_add, UInt32.add_assoc]
        rfl
      · rw [hd, hnext]
        rfl

/-- Numbers are handed out in order. -/
theorem number_of_getElem?_deposits {steps : List Step} {k : Nat} {d : Deposit}
    (h : (table.deposits steps)[k]? = some d) :
    d.id.number = table.nextNumber + UInt32.ofNat k := by
  induction steps generalizing table k with
  | nil => cases h
  | cons step rest ih =>
      rw [deposits] at h
      rcases table.deposit?_cases step with ⟨first, hfirst, hid, hnext⟩ | ⟨hfirst, hnext⟩
      · rw [hfirst, Option.toList_some, List.singleton_append] at h
        cases k with
        | zero =>
            cases h
            rw [hid]
            exact (UInt32.add_zero table.nextNumber).symm
        | succ k =>
            rw [List.getElem?_cons_succ] at h
            rw [ih h, hnext, Nat.add_comm k 1, UInt32.ofNat_add, UInt32.add_assoc]
            rfl
      · rw [hfirst] at h
        rw [ih h, hnext]

end Table

namespace Ledger

theorem deposits_alters {change : Symbol Ident → Symbol Ident}
    (hname : ∀ s, (change s).name = s.name) (ledger : Ledger) (level : Nat) (key : Ident) :
    (ledger.alters level key change).records.map Record.deposit =
      ledger.records.map Record.deposit := by
  rw [alters, List.map_map]
  refine List.map_congr_left fun r _ => ?_
  rw [Function.comp_apply, Record.deposit, Record.deposit, id_alter, level_alter,
    apply_symbol_alter hname]

theorem deposits_note {table after : Table} {action : Action Ident} {outcome : Outcome Ident}
    (heffect : table.Effect action outcome after) (ledger : Ledger) :
    (ledger.note table action outcome).records.map Record.deposit =
      (table.depositOf action outcome).toList ++ ledger.records.map Record.deposit := by
  cases heffect with
  | stored hattempt hdeclare =>
      simp only [note, Table.depositOf, hattempt]
      rfl
  | edited hat =>
      rw [note_edited]
      exact deposits_alters (fun s => s.name_editAll _) ledger _ _
  | _ => rfl

theorem deposits_noteStep (ledger : Ledger) (table : Table) {step : Step}
    (hstep : step.KeepsIdentity) :
    (ledger.noteStep table step).records.map Record.deposit =
      (table.deposit? step).toList ++ ledger.records.map Record.deposit := by
  cases step with
  | act action => exact ledger.deposits_note (table.effect_perform action)
  | alter key change => exact deposits_alters (fun s => (hstep s).2) ledger _ _

/-- The records of a ledger are what has been stored, newest first. -/
theorem deposits_throughSteps (ledger : Ledger) (table : Table) {steps : List Step}
    (hsteps : ∀ step ∈ steps, step.KeepsIdentity) :
    (ledger.throughSteps table steps).records.map Record.deposit =
      (table.deposits steps).reverse ++ ledger.records.map Record.deposit := by
  induction steps generalizing ledger table with
  | nil => rfl
  | cons step rest ih =>
      obtain ⟨hstep, hrest⟩ := List.forall_mem_cons.mp hsteps
      have hfirst : (table.deposit? step).toList.reverse = (table.deposit? step).toList := by
        cases table.deposit? step <;> rfl
      rw [throughSteps, ih _ _ hrest, deposits_noteStep ledger table hstep, Table.deposits,
        List.reverse_append, hfirst, List.append_assoc]

end Ledger

/-! ## Questions by identity -/

namespace Tracks

variable {ledger : Ledger} {table : Table} (h : Tracks ledger table.levels)

include h

/-- A stored symbol belongs to a live record with its identity. -/
theorem exists_record_of_at? {level : Nat} {key : Ident} {s : Symbol Ident}
    (hat : table.levels.at? level key = some s) :
    ∃ r ∈ ledger.records, ledger.Live r ∧ r.level = level ∧ r.key = key ∧ r.symbol = s ∧
      r.id = s.id := by
  obtain ⟨r, hr, hlive, hlevel, hkey, rfl⟩ := (h.stands level key s).mp hat
  exact ⟨r, hr, hlive, hlevel, hkey, rfl, (h.consistent.identified r hr).symm⟩

theorem exists_record_of_symbol? {id : SymbolId} {scan : Scan Ident} {s : Symbol Ident}
    (hs : table.symbol? id scan = some s) :
    ∃ r ∈ ledger.records, r.id = id ∧ ledger.Live r ∧ r.symbol = s := by
  obtain ⟨level, hholds, rfl⟩ := Levels.exists_holds_of_byId? hs
  obtain ⟨key, hat⟩ := Levels.holds_iff.mp hholds
  obtain ⟨r, hr, hlive, -, -, hsymbol, hid⟩ := h.exists_record_of_at? hat
  exact ⟨r, hr, hid, hlive, hsymbol⟩

/-- What is not live is not found by its identity, neither now nor after more steps. -/
theorem symbol?_afterSteps_eq_none {later : List Step}
    (hlater : ∀ step ∈ later, step.KeepsIdentity)
    (hlast : ((ledger.throughSteps table later).records.map Record.id).Nodup)
    {r : Record} (hr : r ∈ ledger.records) (hdead : ¬ ledger.Live r) (scan : Scan Ident) :
    (table.afterSteps later).symbol? r.id scan = none := by
  obtain ⟨r', hr', hid, hlive⟩ := h.continues_throughSteps hlater r hr
  -- The record is still there and still not live, and no other one has its identity.
  refine Option.eq_none_iff_forall_not_mem.mpr fun s hs => ?_
  obtain ⟨other, hother, hsame, halive, -⟩ :=
    (h.throughSteps hlater).exists_record_of_symbol? hs
  rw [List.inj_on_of_nodup_map hlast hother hr' (hsame.trans hid.symm)] at halive
  exact hdead (hlive halive)

variable (hnodup : (ledger.records.map Record.id).Nodup)

include hnodup

/-- A question by identity is answered from the live record with that identity. -/
theorem symbol?_eq_some_iff {id : SymbolId} {scan : Scan Ident} {s : Symbol Ident} :
    table.symbol? id scan = some s ↔
      ∃ r ∈ ledger.records, r.id = id ∧ ledger.Live r ∧ r.symbol = s := by
  refine ⟨h.exists_record_of_symbol?, ?_⟩
  rintro ⟨r, hr, rfl, hlive, rfl⟩
  have hat := (h.stands r.level r.key r.symbol).mpr ⟨r, hr, hlive, rfl, rfl, rfl⟩
  have hsome := Levels.isSome_byId?_of_holds (Levels.holds_iff.mpr ⟨r.key, hat⟩) scan
  rw [h.consistent.identified r hr] at hsome
  obtain ⟨t, ht⟩ := Option.isSome_iff_exists.mp hsome
  obtain ⟨other, hother, hid, -, rfl⟩ := h.exists_record_of_symbol? ht
  rw [List.inj_on_of_nodup_map hnodup hother hr hid] at ht
  exact ht

/-- Two places never have one identity. -/
theorem place_eq_of_id_eq {level other : Nat} {key k : Ident} {s t : Symbol Ident}
    (hs : table.levels.at? level key = some s) (ht : table.levels.at? other k = some t)
    (hid : s.id = t.id) : level = other ∧ key = k := by
  obtain ⟨r, hr, -, rfl, rfl, -, hrs⟩ := h.exists_record_of_at? hs
  obtain ⟨r', hr', -, rfl, rfl, -, hrt⟩ := h.exists_record_of_at? ht
  have hsame : r = r' :=
    List.inj_on_of_nodup_map hnodup hr hr' (hrs.trans (hid.trans hrt.symm))
  exact ⟨congrArg Record.level hsame, congrArg Record.key hsame⟩

end Tracks

/-! ## Runs from a fresh table -/

namespace Table

variable {pool : Pool} {steps : List Step}
  (hfew : ((ofPool pool).deposits steps).length < 2 ^ 32 - 1)

include hfew

theorem toNat_nextNumber_afterSteps :
    ((ofPool pool).afterSteps steps).nextNumber.toNat =
      ((ofPool pool).deposits steps).length + 1 := by
  rw [nextNumber_afterSteps, UInt32.toNat_add, UInt32.toNat_ofNat']
  change (1 + _) % 2 ^ 32 = _
  omega

/-- The numbers of what a run stores are one, two and so on. -/
theorem numbers_deposits :
    ((ofPool pool).deposits steps).map (fun d => d.id.number.toNat) =
      List.range' 1 ((ofPool pool).deposits steps).length := by
  refine List.ext_getElem? fun k => ?_
  rw [List.getElem?_map]
  cases hplace : ((ofPool pool).deposits steps)[k]? with
  | none =>
      have hlength := List.getElem?_eq_none_iff.mp hplace
      rw [List.getElem?_eq_none (by rw [List.length_range']; exact hlength)]
      rfl
  | some d =>
      obtain ⟨hlength, -⟩ := List.getElem?_eq_some_iff.mp hplace
      rw [List.getElem?_range' hlength, Option.map_some, number_of_getElem?_deposits hplace,
        UInt32.toNat_add, UInt32.toNat_ofNat']
      change some ((1 + _) % 2 ^ 32) = _
      congr 1
      omega

/-- Numbers start at one, and the next number has not been used. -/
theorem number_lt_of_mem_deposits {d : Deposit} (hd : d ∈ (ofPool pool).deposits steps) :
    1 ≤ d.id.number ∧ d.id.number < ((ofPool pool).afterSteps steps).nextNumber := by
  have hmem : d.id.number.toNat ∈ List.range' 1 ((ofPool pool).deposits steps).length := by
    rw [← numbers_deposits hfew]
    exact List.mem_map_of_mem hd
  rw [List.mem_range'_1] at hmem
  have hone : (1 : UInt32).toNat = 1 := rfl
  rw [UInt32.le_iff_toNat_le, UInt32.lt_iff_toNat_lt, toNat_nextNumber_afterSteps hfew, hone]
  omega

theorem nodup_ids_deposits : (((ofPool pool).deposits steps).map Deposit.id).Nodup := by
  apply List.Nodup.of_map (fun id => id.number.toNat)
  rw [List.map_map]
  change (((ofPool pool).deposits steps).map fun d => d.id.number.toNat).Nodup
  rw [numbers_deposits hfew]
  exact List.nodup_range'

end Table

/-- What the ledger of a run from a fresh table has as records. -/
theorem Ledger.records_of_ofPool (pool : Pool) {steps : List Step}
    (hsteps : ∀ step ∈ steps, step.KeepsIdentity) :
    (Ledger.blank.throughSteps (Table.ofPool pool) steps).records.map Record.deposit =
      ((Table.ofPool pool).deposits steps).reverse := by
  rw [Ledger.deposits_throughSteps _ _ hsteps]
  exact List.append_nil _

theorem Ledger.nodup_ids {pool : Pool} {steps : List Step}
    (hsteps : ∀ step ∈ steps, step.KeepsIdentity)
    (hfew : ((Table.ofPool pool).deposits steps).length < 2 ^ 32 - 1) :
    ((Ledger.blank.throughSteps (Table.ofPool pool) steps).records.map Record.id).Nodup := by
  have hids := congrArg (List.map Deposit.id) (Ledger.records_of_ofPool pool hsteps)
  rw [List.map_map, List.map_reverse] at hids
  change List.map Record.id _ = _ at hids
  rw [hids, List.nodup_reverse]
  exact Table.nodup_ids_deposits hfew

/-- Identities identify symbols for a whole run. Let a run from a fresh table store less
declarations than there are numbers. What it stores is answered with the numbers from one
on, in order, and has one record each, under its name. All stored symbols have numbers of
their own, below the next one. A question by identity is answered with the symbol of the
record with that identity, if the record is live, in whatever order a level is searched.
Once it is not, the identity is never found again. -/
theorem ids_identify_symbols {pool : Pool} {steps later : List Step}
    (hkeeps : ∀ step ∈ steps ++ later, step.KeepsIdentity)
    (hfew : ((Table.ofPool pool).deposits (steps ++ later)).length < 2 ^ 32 - 1) :
    let start := Table.ofPool pool
    let table := start.afterSteps steps
    let ledger := Ledger.blank.throughSteps start steps
    (start.deposits steps).map (fun d => d.id.number.toNat) =
      List.range' 1 (start.deposits steps).length ∧
    ledger.records.map Record.deposit = (start.deposits steps).reverse ∧
    (∀ level key s other k t, table.levels.at? level key = some s →
      table.levels.at? other k = some t → s.id = t.id → level = other ∧ key = k) ∧
    (∀ level key s, table.levels.at? level key = some s →
      1 ≤ s.id.number ∧ s.id.number < table.nextNumber) ∧
    (∀ id scan s, table.symbol? id scan = some s ↔
      ∃ r ∈ ledger.records, r.id = id ∧ ledger.Live r ∧ r.symbol = s) ∧
    ∀ r ∈ ledger.records, ¬ ledger.Live r →
      ∀ scan, (table.afterSteps later).symbol? r.id scan = none := by
  intro start table ledger
  obtain ⟨hsteps, hlater⟩ := List.forall_mem_append.mp hkeeps
  have hnow : (start.deposits steps).length < 2 ^ 32 - 1 := by
    rw [Table.deposits_append, List.length_append] at hfew
    exact Nat.lt_of_le_of_lt (Nat.le_add_right _ _) hfew
  have hfresh : Tracks .blank start.levels := Tracks.blank
  have htracks : Tracks ledger table.levels := hfresh.throughSteps hsteps
  have hnodup : (ledger.records.map Record.id).Nodup := Ledger.nodup_ids hsteps hnow
  have hrecords : ledger.records.map Record.deposit = (start.deposits steps).reverse :=
    Ledger.records_of_ofPool pool hsteps
  refine ⟨Table.numbers_deposits hnow, hrecords, ?_, ?_, ?_, ?_⟩
  · intro level key s other k t
    exact htracks.place_eq_of_id_eq hnodup
  · intro level key s hat
    obtain ⟨r, hr, -, -, -, -, hid⟩ := htracks.exists_record_of_at? hat
    have hmem : r.deposit ∈ start.deposits steps := by
      rw [← List.mem_reverse, ← hrecords]
      exact List.mem_map_of_mem hr
    rw [← hid]
    exact Table.number_lt_of_mem_deposits hnow hmem
  · intro id scan s
    exact htracks.symbol?_eq_some_iff hnodup
  · intro r hr hdead scan
    have hlast := Ledger.nodup_ids hkeeps hfew
    rw [Ledger.throughSteps_append] at hlast
    exact htracks.symbol?_afterSteps_eq_none hlater hlast hr hdead scan

/-- The identity of a variable is found until its scope is closed and not found after
that, although the same name is declared at the same level again. -/
theorem identity_gone_with_its_scope :
    let x := Pool.blank.intern "x"
    let float : Declaration Ident := .var { type := Ty.scalar .float }
    let inside := [Step.act .openScope, Step.act (.declare x.1 float)]
    let closed := inside ++ [Step.act .closeScope]
    let later := [Step.act .openScope, Step.act (.declare x.1 float),
      Step.alter x.1 (fun s => s.edit (.resolveLength 4))]
    let start := Table.ofPool x.2
    ((∀ step ∈ closed ++ later, step.KeepsIdentity) ∧
      (start.deposits (closed ++ later)).length < 2 ^ 32 - 1) ∧
      (∀ scan, (start.afterSteps inside).symbol? ⟨1⟩ scan = some ⟨⟨1⟩, x.1, float⟩) ∧
      ∀ scan, ((start.afterSteps closed).afterSteps later).symbol? ⟨1⟩ scan = none := by
  intro x float inside closed later start
  have hkeeps : ∀ step ∈ closed ++ later, step.KeepsIdentity := by
    simp [closed, inside, later, Step.KeepsIdentity, Symbol.edit]
  have hfew : (start.deposits (closed ++ later)).length < 2 ^ 32 - 1 := by
    have hlength := start.length_deposits_le (closed ++ later)
    have hsix : (closed ++ later).length = 6 := rfl
    omega
  let r : Record := ⟨⟨1⟩, x.1, 3, some 0, ⟨⟨1⟩, x.1, float⟩⟩
  refine ⟨⟨hkeeps, hfew⟩, fun scan => ?_, fun scan => ?_⟩
  · -- The same run, cut where the scope is still open.
    have hcut : ∀ step ∈ inside ++ .act .closeScope :: later, step.KeepsIdentity := hkeeps
    obtain ⟨-, -, -, -, hfound, -⟩ := ids_identify_symbols hcut hfew
    have hr : (Ledger.blank.throughSteps start inside).records = [r] := rfl
    refine (hfound ⟨1⟩ scan _).mpr ⟨r, hr ▸ List.mem_singleton_self r, rfl, ?_, rfl⟩
    exact .inr ⟨0, List.mem_singleton_self 0, rfl⟩
  · obtain ⟨-, -, -, -, -, hgone⟩ := ids_identify_symbols hkeeps hfew
    have hr : (Ledger.blank.throughSteps start closed).records = [r] := rfl
    have hdead : ¬ (Ledger.blank.throughSteps start closed).Live r := by
      rintro (htier | ⟨n, hn, -⟩)
      · exact absurd htier (by decide)
      · cases hn
    exact hgone r (hr ▸ List.mem_singleton_self r) hdead scan

end ShaderScope
