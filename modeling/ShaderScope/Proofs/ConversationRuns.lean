import ShaderScope.Proofs.Identities
import ShaderScope.Proofs.Interning
import ShaderScope.Table.Conversation

/-!
# Conversations as runs

A conversation takes a table through steps that leave identities alone. What it stores
can be counted from its answers, so that the numbers of symbols last as long as not too
many answers tell of a stored declaration. How many strings it pools is bounded by the
strings that its requests are made of.
-/

namespace ShaderScope

/-! ## What replies tell about declarations -/

namespace Reply

variable {ν μ : Type}

theorem stores_map (f : ν → μ) (reply : Reply ν) : (reply.map f).stores = reply.stores := by
  cases reply with
  | done outcome =>
      cases outcome with
      | declared result => cases result <;> rfl
      | _ => rfl
  | _ => rfl

theorem stores_ofSymbol? (s : Option (Symbol ν)) : (ofSymbol? s).stores = false := by
  cases s <;> rfl

theorem stores_ofHit? (hit : Option Hit) : (ofHit? hit).stores = false := by
  cases hit <;> rfl

theorem isRejected_map_ofSymbol? (f : ν → μ) (s : Option (Symbol ν)) :
    ((ofSymbol? s).map f).isRejected = false := by
  cases s <;> rfl

theorem stores_of_isRejected {reply : Reply ν} (h : reply.isRejected = true) :
    reply.stores = false := by
  cases reply with
  | done outcome =>
      cases outcome with
      | declared result =>
          cases result with
          | error rejection => rfl
          | ok id => cases h
      | _ => rfl
  | _ => rfl

end Reply

/-- Answers that store at the same places have stored as much up to every place. -/
theorem storedIn_take_eq {answers others : List Answer}
    (h : answers.map (fun answer => answer.reply.stores) =
      others.map (fun answer => answer.reply.stores)) (place : Nat) :
    storedIn (answers.take place) = storedIn (others.take place) := by
  have hcount : ∀ list : List Answer,
      storedIn list = (list.map fun answer => answer.reply.stores).countP id := by
    intro list
    rw [List.countP_map]
    rfl
  rw [hcount, hcount, List.map_take, List.map_take, h]

theorem storedIn_take_le (answers : List Answer) (place : Nat) :
    storedIn (answers.take place) ≤ storedIn answers :=
  (List.take_sublist place answers).countP_le

/-! ## Conversations are runs -/

/-- Some steps lead from one table to the other, and they store so many declarations. -/
def Table.Reaches (table : Table) (stored : Nat) (after : Table) : Prop :=
  ∃ steps : List Step, (∀ step ∈ steps, step.KeepsIdentity) ∧
    table.afterSteps steps = after ∧ (table.deposits steps).length = stored

namespace Table

namespace Reaches

variable {table next after : Table} {stored later : Nat}

theorem refl (table : Table) : table.Reaches 0 table :=
  ⟨[], List.forall_mem_nil _, rfl, rfl⟩

theorem trans (h : table.Reaches stored next) (h' : next.Reaches later after) :
    table.Reaches (stored + later) after := by
  obtain ⟨steps, hsteps, rfl, rfl⟩ := h
  obtain ⟨more, hmore, rfl, rfl⟩ := h'
  refine ⟨steps ++ more, List.forall_mem_append.mpr ⟨hsteps, hmore⟩,
    table.afterSteps_append steps more, ?_⟩
  rw [deposits_append, List.length_append]

theorem of_step (table : Table) (step : Step) (h : step.KeepsIdentity) :
    table.Reaches (table.deposit? step).toList.length (table.step step) := by
  refine ⟨[step], List.forall_mem_singleton.mpr h, rfl, ?_⟩
  rw [deposits, deposits, List.append_nil]

theorem grows (h : table.Reaches stored after) : table.pool.Grows after.pool := by
  obtain ⟨steps, -, rfl, -⟩ := h
  exact table.grows_afterSteps steps

/-- As long as numbers last, the identities inside of a level are distinct. -/
theorem identified {pool : Pool} (h : (ofPool pool).Reaches stored table)
    (hfew : stored < 2 ^ 32 - 1) : table.levels.Identified := by
  obtain ⟨steps, hsteps, rfl, rfl⟩ := h
  have hfresh : Tracks .blank (ofPool pool).levels := Tracks.blank
  have htracks := hfresh.throughSteps hsteps
  intro level scope hscope s hs t ht hid
  obtain ⟨key, hat⟩ := Levels.holds_iff.mp ⟨scope, hscope, hs⟩
  obtain ⟨other, hat'⟩ := Levels.holds_iff.mp ⟨scope, hscope, ht⟩
  obtain ⟨-, rfl⟩ := htracks.place_eq_of_id_eq (Ledger.nodup_ids hsteps hfew) hat hat' hid
  exact Option.some.inj (hat.symm.trans hat')

end Reaches

theorem reaches_learn (table : Table) (strings : List String) :
    table.Reaches 0 (table.learn strings) := by
  induction strings generalizing table with
  | nil => exact .refl table
  | cons s rest ih =>
      have hfirst : table.Reaches 0 { table with pool := (table.pool.intern s).2 } :=
        .of_step table (.act (.intern s)) trivial
      exact hfirst.trans (ih { table with pool := (table.pool.intern s).2 })

theorem length_depositOf {table after : Table} {action : Action Ident} {outcome : Outcome Ident}
    (heffect : table.Effect action outcome after) :
    (table.depositOf action outcome).toList.length =
      if (Reply.done outcome).stores then 1 else 0 := by
  cases heffect with
  | stored hattempt hdeclare =>
      rw [depositOf, hattempt]
      rfl
  | _ => rfl

/-- A request is an action, a change in place, or nothing that changes the table. -/
theorem reaches_reply (table : Table) (scan : Scan Ident) (request : Request Ident) :
    table.Reaches (if (table.reply scan request).1.stores then 1 else 0)
      (table.reply scan request).2 := by
  cases request with
  | act action =>
      have hstep : table.Reaches _ (table.step (.act action)) := .of_step table _ trivial
      rw [deposit?, length_depositOf (table.effect_perform action)] at hstep
      exact hstep
  | replace key declaration =>
      cases hat : table.levels.at? table.current key with
      | none =>
          simp only [reply, hat]
          exact .refl table
      | some s =>
          simp only [reply, hat]
          exact .of_step table (.alter key ({ · with declaration })) fun _ => ⟨rfl, rfl⟩
  | find key version =>
      rw [reply, Reply.stores_ofHit?]
      exact .refl table
  | findBuiltin key version =>
      rw [reply, Reply.stores_ofSymbol?]
      exact .refl table
  | findFunction name args version =>
      rw [reply, Reply.stores_ofHit?]
      exact .refl table
  | symbol id =>
      rw [reply, Reply.stores_ofSymbol?]
      exact .refl table
  | hasBuiltinFunction name version => exact .refl table
  | defaultPrecision kind => exact .refl table

theorem reaches_ask (table : Table) (scan : Scan Ident) (request : Request String) :
    table.Reaches (if (table.ask scan request).1.reply.stores then 1 else 0)
      (table.ask scan request).2 := by
  have hreply := (table.reaches_learn request.names).trans
    ((table.learn request.names).reaches_reply scan
      (request.map fun s => ((table.learn request.names).pool.ident s).kept))
  rw [Nat.zero_add, ← Reply.stores_map] at hreply
  exact hreply

theorem reaches_converse (table : Table) (scan : Scan Ident)
    (steps : List (List String × Request String)) :
    table.Reaches (storedIn (table.converse scan steps).1) (table.converse scan steps).2 := by
  induction steps generalizing table with
  | nil => exact .refl table
  | cons step rest ih =>
      obtain ⟨strings, request⟩ := step
      have hfirst := (table.reaches_learn strings).trans
        ((table.learn strings).reaches_ask scan request)
      have hall := hfirst.trans (ih ((table.learn strings).ask scan request).2)
      rw [Nat.zero_add, Nat.add_comm] at hall
      rw [converse, storedIn, List.countP_cons]
      exact hall

end Table

/-! ## Short conversations -/

theorem Table.length_converse (table : Table) (scan : Scan Ident)
    (steps : List (List String × Request String)) :
    (table.converse scan steps).1.length = steps.length := by
  induction steps generalizing table with
  | nil => rfl
  | cons step rest ih =>
      obtain ⟨strings, request⟩ := step
      exact congrArg (· + 1) (ih ((table.learn strings).ask scan request).2)

/-- At most every request stores a declaration. -/
theorem storedIn_converse_le (table : Table) (scan : Scan Ident)
    (steps : List (List String × Request String)) :
    storedIn (table.converse scan steps).1 ≤ steps.length := by
  rw [← table.length_converse scan steps]
  exact List.countP_le_length

/-- How many strings a conversation pools at most: those that come with a request, its
names, and what the table pools to carry it out. -/
def poolingBound (steps : List (List String × Request String)) : Nat :=
  (steps.map fun step => step.1.length + step.2.names.length + 2).sum

namespace Pool.HasAtMost

variable {table : Table} {n : Nat}

theorem levelKey {pool : Pool} (h : pool.HasAtMost n) (s : Symbol Ident) :
    (s.levelKey pool).2.HasAtMost (n + 1) := by
  unfold Symbol.levelKey
  split
  · exact h.intern _
  · exact h.mono (Nat.le_succ n)
  · exact h.mono (Nat.le_succ n)

theorem keyed (h : table.pool.HasAtMost n) {action : Action Ident} {attempt : Attempt table}
    (hattempt : table.attempt? action = some attempt) : attempt.keyed.HasAtMost (n + 2) := by
  have hpool : attempt.pool.HasAtMost (n + 1) := by
    cases action with
    | declare name declaration =>
        cases hattempt
        exact h.mono (Nat.le_succ n)
    | rebind key version =>
        obtain ⟨hit, -, rfl⟩ := Option.map_eq_some_iff.mp hattempt
        exact h.mono (Nat.le_succ n)
    | declareBuiltin tier name declaration =>
        cases hattempt
        exact h.intern name
    | _ => cases hattempt
  exact hpool.levelKey attempt.symbol

/-- An action pools a name and a signature at most. -/
theorem effect (h : table.pool.HasAtMost n) {action : Action Ident} {outcome : Outcome Ident}
    {after : Table} (heffect : table.Effect action outcome after) :
    after.pool.HasAtMost (n + 2) := by
  have hsame : table.pool.HasAtMost (n + 2) := h.mono (Nat.le_add_right n 2)
  cases heffect with
  | stored hattempt hdeclare => exact h.keyed hattempt
  | refused hattempt hdeclare => exact h.keyed hattempt
  | interned s => exact (h.intern s).mono (Nat.le_succ _)
  | _ => exact hsame

theorem reply (table : Table) (h : table.pool.HasAtMost n) (scan : Scan Ident)
    (request : Request Ident) : (table.reply scan request).2.pool.HasAtMost (n + 2) := by
  have hsame : table.pool.HasAtMost (n + 2) := h.mono (Nat.le_add_right n 2)
  cases request with
  | act action => exact h.effect (table.effect_perform action)
  | replace key declaration =>
      rw [Table.reply]
      split <;> exact hsame
  | _ => exact hsame

theorem ask (table : Table) (h : table.pool.HasAtMost n) (scan : Scan Ident)
    (request : Request String) :
    (table.ask scan request).2.pool.HasAtMost (n + request.names.length + 2) :=
  reply (table.learn request.names) (h.internAll request.names) scan _

theorem converse (table : Table) (h : table.pool.HasAtMost n) (scan : Scan Ident)
    (steps : List (List String × Request String)) :
    (table.converse scan steps).2.pool.HasAtMost (n + poolingBound steps) := by
  induction steps generalizing table n with
  | nil => exact h
  | cons step rest ih =>
      obtain ⟨strings, request⟩ := step
      have hasked := ask (table.learn strings) (h.internAll strings) scan request
      refine (ih _ hasked).mono ?_
      simp only [poolingBound, List.map_cons, List.sum_cons]
      omega

end Pool.HasAtMost

end ShaderScope
