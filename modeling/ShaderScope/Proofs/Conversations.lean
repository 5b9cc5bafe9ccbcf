import ShaderScope.Proofs.ConversationRuns
import ShaderScope.Proofs.Replies

/-!
# Conversations do not depend on the pool

A table over identifiers answers every request as the table over strings does that
it reads as. Which identifiers its pool hands out, what else the pool has learned, and
in which order its levels are searched can therefore not be told from its answers.

A question by identity takes part in this as long as there are numbers for all that
has been stored, because then the identities inside of a level are distinct.
-/

namespace ShaderScope

/-! ## Answers in strings -/

theorem Reply.symbol?_map {ν μ : Type} (f : ν → μ) (reply : Reply ν) :
    (reply.map f).symbol? = reply.symbol?.map (Symbol.map f) := by
  cases reply with
  | done outcome => cases outcome <;> rfl
  | _ => rfl

/-- Spellings depend on the texts of names only. -/
theorem Reply.spellings_map {ν μ : Type} (f : ν → μ) (text : μ → String) (reply : Reply ν) :
    (reply.map f).spellings text = reply.spellings (text ∘ f) := by
  rw [spellings, spellings, symbol?_map, Option.map_map]
  congr 2
  funext s
  exact s.spellings_map f text

/-- Numbers have lasted up to a question by identity, if the request at this place is one. -/
def NumbersLast (requests : List (Request String)) (place stored : Nat) : Prop :=
  ∀ id, requests[place]? = some (.symbol id) → stored < 2 ^ 32 - 1

/-- A conversation with a table beside the one in strings. So many declarations have been
stored before it. -/
structure Conversed (requests : List (Request String)) (stored : Nat)
    (conversed : List Answer × Table) (text : List Answer × TextTable) : Prop where
  answers : ∀ place, NumbersLast requests place (stored + storedIn (text.1.take place)) →
    conversed.1[place]? = text.1[place]?
  stores : conversed.1.map (fun answer => answer.reply.stores) =
    text.1.map (fun answer => answer.reply.stores)
  table : conversed.2.ReadsAs text.2

namespace Table.ReadsAs

variable {table : Table} {text : TextTable} {scan : Scan Ident}

/-- One step of the induction over conversations. -/
theorem ask (h : table.ReadsAs text) {request : Request String}
    (hfits : (table.ask scan request).2.pool.Fits) :
    ((∀ id, request = .symbol id → table.levels.Identified) →
      (table.ask scan request).1 =
        ⟨(text.reply request).1, (text.reply request).1.spellings id⟩) ∧
    (table.ask scan request).1.reply.stores = (text.reply request).1.stores ∧
    (table.ask scan request).2.ReadsAs (text.reply request).2 := by
  have hknown : (table.pool.internAll request.names).2.Fits :=
    hfits.of_grows ((table.learn request.names).reaches_reply scan _).grows
  have hreplied := (h.learn request.names).reply scan hknown.resolves_internAll
  have hanswer : (∀ id, request = .symbol id → table.levels.Identified) →
      (table.ask scan request).1 =
        ⟨(text.reply request).1, (text.reply request).1.spellings id⟩ := by
    intro hidentified
    have hreply := (hreplied hidentified).reply _ hfits.readBy
    rw [← hreply, Reply.spellings_map, Function.id_comp, Table.ask]
    rfl
  refine ⟨hanswer, ?_⟩
  by_cases hsymbol : ∃ id, request = .symbol id
  · -- Whatever the question finds, it stores nothing.
    obtain ⟨id, rfl⟩ := hsymbol
    refine ⟨?_, h.learn []⟩
    simp only [Table.ask, Reply.read, Reply.stores_map, Request.map, Table.reply,
      TextTable.reply, Reply.stores_ofSymbol?]
  · have hother : ∀ id, request = .symbol id → table.levels.Identified :=
      fun id hid => absurd ⟨id, hid⟩ hsymbol
    refine ⟨?_, (hreplied hother).table⟩
    rw [hanswer hother]

theorem converse {pool : Pool} {stored : Nat} {steps : List (List String × Request String)}
    (hreached : (Table.ofPool pool).Reaches stored table) (h : table.ReadsAs text)
    (hfits : (table.converse scan steps).2.pool.Fits) :
    Conversed (steps.map Prod.snd) stored (table.converse scan steps)
      (text.converse (steps.map Prod.snd)) := by
  induction steps generalizing table text stored with
  | nil => exact ⟨fun _ _ => rfl, rfl, h⟩
  | cons step rest ih =>
      obtain ⟨strings, request⟩ := step
      have hknown := hreached.trans (table.reaches_learn strings)
      have hnext := hknown.trans ((table.learn strings).reaches_ask scan request)
      obtain ⟨hanswer, hstores, hreads⟩ := (h.learn strings).ask
        (hfits.of_grows (Table.reaches_converse _ scan rest).grows)
      have hrest := ih hnext hreads hfits
      refine ⟨?_, congrArg₂ List.cons hstores hrest.stores, hrest.table⟩
      intro place hlast
      cases place with
      | zero =>
          refine congrArg some (hanswer fun id hid => ?_)
          exact hreached.identified (hlast id (congrArg some hid))
      | succ place =>
          refine hrest.answers place fun id hid => ?_
          have hcount : storedIn ((text.converse (request :: rest.map Prod.snd)).1.take
                (place + 1)) =
              storedIn (((text.reply request).2.converse (rest.map Prod.snd)).1.take place) +
                if (text.reply request).1.stores then 1 else 0 :=
            List.countP_cons
          have hfew := hlast id hid
          rw [List.map_cons, hcount] at hfew
          rw [hstores]
          omega

end Table.ReadsAs

/-- A rejected request leaves a table over strings as it was. -/
theorem TextTable.eq_of_rejected {table : TextTable} {request : Request String}
    (h : (table.reply request).1.isRejected = true) : (table.reply request).2 = table := by
  have hstore : ∀ {level : Nat} {hlevel : level < table.levels.scopes.size} {s : Symbol String},
      (table.store level hlevel s).1.isRejected = true →
        (table.store level hlevel s).2 = table := by
    intro level hlevel s hrejected
    cases hdeclare : table.levels.declare level hlevel (keyOf s) s with
    | error rejection => simp only [store, hdeclare]
    | ok levels =>
        simp only [store, hdeclare] at hrejected
        cases hrejected
  cases request with
  | replace key declaration =>
      cases hat : table.levels.at? table.current key with
      | none => simp only [reply, hat]
      | some s =>
          simp only [reply, hat] at h
          cases h
  | act action =>
      cases action with
      | declare name declaration => exact hstore h
      | declareBuiltin tier name declaration => exact hstore h
      | rebind key version =>
          cases hfind : table.levels.find? table.current version key with
          | none => simp only [reply, perform, hfind]
          | some found =>
              simp only [reply, perform, hfind] at h ⊢
              exact hstore h
      | closeScope =>
          cases hpop : table.levels.pop? with
          | none => simp only [reply, perform, hpop]
          | some levels =>
              simp only [reply, perform, hpop] at h
              cases h
      | edit key edits =>
          cases hat : table.levels.at? table.current key with
          | none => simp only [reply, perform, hat]
          | some s =>
              simp only [reply, perform, hat] at h
              cases h
      | setDefault specifier precision =>
          cases htakes : specifier.takesDefault with
          | false => simp only [reply, perform, htakes, Bool.false_eq_true, if_false]
          | true =>
              simp only [reply, perform, htakes, if_true] at h
              cases h
      | openScope => cases h
      | intern s => rfl
  | _ => rfl

/-- A question is never rejected. -/
theorem Table.isRejected_ask_symbol (table : Table) (scan : Scan Ident) (id : SymbolId) :
    (table.ask scan (.symbol id)).1.reply.isRejected = false := by
  simp only [ask, Reply.read, Request.map, reply, Reply.isRejected_map_ofSymbol?]

/-- A conversation that goes on after a rejected request is one that goes on without it. -/
theorem Table.ReadsAs.converse_of_rejected {pool : Pool} {stored : Nat} {table : Table}
    {text : TextTable} {scan : Scan Ident} {request : Request String}
    {rest : List (List String × Request String)}
    (hreached : (Table.ofPool pool).Reaches stored table) (h : table.ReadsAs text)
    (hrejected : (table.ask scan request).1.reply.isRejected = true)
    (hfits : ((table.ask scan request).2.converse scan rest).2.pool.Fits) :
    Conversed (rest.map Prod.snd) stored ((table.ask scan request).2.converse scan rest)
      (text.converse (rest.map Prod.snd)) := by
  have hasked := hreached.trans (table.reaches_ask scan request)
  rw [Reply.stores_of_isRejected hrejected] at hasked
  obtain ⟨hanswer, -, hnext⟩ := h.ask
    (hfits.of_grows (Table.reaches_converse _ scan rest).grows)
  have hrequest : ∀ id, request = .symbol id → table.levels.Identified := by
    rintro id rfl
    rw [table.isRejected_ask_symbol] at hrejected
    cases hrejected
  rw [hanswer hrequest] at hrejected
  rw [TextTable.eq_of_rejected hrejected] at hnext
  exact hnext.converse hasked hfits

/-- Which identifiers a pool hands out cannot be observed, and neither can the order in
which levels are searched. Two conversations of the same requests get the same answers,
where one of them starts from another pool and lets it learn more strings before each
request, as long as less declarations are stored than there are numbers. Without that,
all answers are still the same but those to questions by identity after the numbers have
run out. Leaving out a request that is rejected changes no later answer either, whatever
it has pooled. In all conversations no string is refused. -/
theorem answers_do_not_depend_on_pool {pool other : Pool} {scan scan' : Scan Ident}
    {steps : List (List String × Request String)}
    (hfits : ((Table.ofPool pool).converse scan steps).2.pool.Fits)
    (hfits' : ((Table.ofPool other).converse scan'
      (steps.map fun step => ([], step.2))).2.pool.Fits) :
    let conversed := (Table.ofPool pool).converse scan steps
    let answers := conversed.1
    let others := ((Table.ofPool other).converse scan' (steps.map fun step => ([], step.2))).1
    (storedIn answers < 2 ^ 32 - 1 → answers = others) ∧
    (∀ place, NumbersLast (steps.map Prod.snd) place (storedIn (answers.take place)) →
      answers[place]? = others[place]?) ∧
    ∀ (request : Request String) (rest : List (List String × Request String)),
      let asked := conversed.2.ask scan request
      let after := asked.2.converse scan rest
      let without := conversed.2.converse scan' rest
      asked.1.reply.isRejected = true → after.2.pool.Fits → without.2.pool.Fits →
        ∀ place,
          NumbersLast (rest.map Prod.snd) place
            (storedIn answers + storedIn (without.1.take place)) →
          after.1[place]? = without.1[place]? := by
  intro conversed answers others
  have hfirst := Table.ReadsAs.converse (.refl _) (.ofPool pool) hfits
  have hsecond := Table.ReadsAs.converse (.refl _) (.ofPool other) hfits'
  have hrequests : (steps.map fun step => (([] : List String), step.2)).map Prod.snd =
      steps.map Prod.snd := by
    rw [List.map_map]
    rfl
  rw [hrequests] at hsecond
  have hplaces : ∀ place,
      NumbersLast (steps.map Prod.snd) place (storedIn (answers.take place)) →
        answers[place]? = others[place]? := by
    intro place hlast
    rw [storedIn_take_eq hfirst.stores, ← Nat.zero_add (storedIn _)] at hlast
    exact (hfirst.answers place hlast).trans (hsecond.answers place hlast).symm
  refine ⟨?_, hplaces, ?_⟩
  · intro hfew
    refine List.ext_getElem? fun place => hplaces place fun id _ => ?_
    exact Nat.lt_of_le_of_lt (storedIn_take_le answers place) hfew
  · intro request rest asked after without hrejected hafter hwithout place hlast
    have hreached := (Table.ofPool pool).reaches_converse scan steps
    have hwith := hfirst.table.converse_of_rejected hreached hrejected hafter
    have hleft := hfirst.table.converse hreached hwithout
    rw [storedIn_take_eq hleft.stores] at hlast
    exact (hwith.answers place hlast).trans (hleft.answers place hlast).symm

/-- With the string q in the same shard before it, the name a has another identifier, and
levels are searched the other way round. The answers are the same, also without a function
that was declared again. -/
theorem answers_same_beside_other_strings :
    let float : Ty String := .scalar .float
    let f : Declaration String := .func { result := float, params := [⟨none, float⟩] }
    let a : Declaration String := .var { type := float }
    let again : Request String := .act (.declare "f" f)
    let questions : List (List String × Request String) :=
      [([], .findFunction "f" [float] .essl300), ([], .symbol ⟨2⟩)]
    let steps : List (List String × Request String) :=
      (["x"], .act .openScope) :: ([], again) :: (["f(f1)"], .act (.declare "a" a)) :: questions
    let pool := (Pool.blank.intern "a").2
    let other := ((Pool.blank.intern "q").2.intern "a").2
    let oldestFirst : Scan Ident := ⟨List.reverse, List.reverse_perm⟩
    let conversed := (Table.ofPool pool).converse .newestFirst steps
    let others := (Table.ofPool other).converse oldestFirst (steps.map fun step => ([], step.2))
    let asked := conversed.2.ask .newestFirst again
    (conversed.2.pool.Fits ∧ others.2.pool.Fits ∧ storedIn conversed.1 < 2 ^ 32 - 1) ∧
      pool.ident? "a" ≠ other.ident? "a" ∧ conversed.1 = others.1 ∧
      (conversed.1[4]?.bind fun answer => answer.reply.symbol?).map Symbol.name = some "a" ∧
      asked.1.reply.isRejected = true ∧
      (asked.2.converse .newestFirst questions).1 =
        (conversed.2.converse oldestFirst questions).1 := by
  intro float f a again questions steps pool other oldestFirst conversed others asked
  have hpool : pool.HasAtMost 1 := Pool.HasAtMost.blank.intern "a"
  have hother : other.HasAtMost 2 := (Pool.HasAtMost.blank.intern "q").intern "a"
  have hidents : pool.ident? "a" ≠ other.ident? "a" := by
    have hq : ¬ Pool.blank.Stored "q" := Pool.not_stored_blank "q"
    have ha : ¬ (Pool.blank.intern "q").2.Stored "a" := by
      rw [Pool.stored_intern_iff]
      exact not_or.mpr ⟨Pool.not_stored_blank "a", by decide⟩
    have hhome : homeShard "q" = homeShard "a" := by decide
    rw [Pool.ident?_intern_of_not_stored (Pool.not_stored_blank "a"),
      Pool.ident?_intern_of_not_stored ha, Pool.shardSize_intern_of_not_stored hq, if_pos hhome,
      Pool.shardSize_blank]
    simp
  have hlengths : steps.length = 5 ∧ questions.length = 2 := ⟨rfl, rfl⟩
  have hshort : poolingBound steps ≤ 20 ∧ poolingBound questions ≤ 20 ∧
      poolingBound (steps.map fun step => ([], step.2)) ≤ 20 := by
    decide
  let text := TextTable.fresh.converse (steps.map Prod.snd)
  have hfound : (text.1[4]?.bind fun answer => answer.reply.symbol?).map Symbol.name =
      some "a" := by
    decide
  have hrepeated : (text.2.reply again).1.isRejected = true := by decide
  have hagain : again.names.length = 1 ∧ ∀ id, again ≠ .symbol id := ⟨rfl, by simp [again]⟩
  -- From here on the pools are not looked into, so that nothing is evaluated in them.
  clear_value again steps questions pool other
  have hfits : ∀ {pool : Pool} {n : Nat}, pool.HasAtMost n → n ≤ 100 → pool.Fits :=
    fun h hle => h.fits (Nat.le_trans hle (by decide))
  have hconversed := hpool.converse (.ofPool pool) .newestFirst steps
  have hothers := hother.converse (.ofPool other) oldestFirst
    (steps.map fun step => ([], step.2))
  have hasked := hconversed.ask conversed.2 .newestFirst again
  have hafter := hasked.converse asked.2 .newestFirst questions
  have hwithout := hconversed.converse conversed.2 oldestFirst questions
  have hfits₁ : conversed.2.pool.Fits := hfits hconversed (by omega)
  have hfits₂ : others.2.pool.Fits := hfits hothers (by omega)
  have hstored : storedIn conversed.1 ≤ steps.length :=
    storedIn_converse_le (.ofPool pool) .newestFirst steps
  have hfew : storedIn conversed.1 < 2 ^ 32 - 1 := by omega
  obtain ⟨hsame, -, hrest⟩ := answers_do_not_depend_on_pool hfits₁ hfits₂
  have hreads := Table.ReadsAs.converse (.refl _) (.ofPool pool) hfits₁
  obtain ⟨hanswer, -⟩ := hreads.table.ask (hfits hasked (by omega))
  have hrejected : asked.1.reply.isRejected = true := by
    change (conversed.2.ask .newestFirst again).1.reply.isRejected = true
    rw [hanswer fun id hid => absurd hid (hagain.2 id)]
    exact hrepeated
  have hfits₃ : (asked.2.converse .newestFirst questions).2.pool.Fits := hfits hafter (by omega)
  have hfits₄ : (conversed.2.converse oldestFirst questions).2.pool.Fits :=
    hfits hwithout (by omega)
  refine ⟨⟨hfits₁, hfits₂, hfew⟩, hidents, hsame hfew, ?_, hrejected, ?_⟩
  · have hcount : storedIn (text.1.take 4) ≤ 4 :=
      Nat.le_trans List.countP_le_length (List.length_take_le 4 _)
    have hlast : 0 + storedIn (text.1.take 4) < 2 ^ 32 - 1 := by omega
    rw [hreads.answers 4 fun _ _ => hlast]
    exact hfound
  · have hplaces := hrest again questions hrejected hfits₃ hfits₄
    have hlater := storedIn_converse_le conversed.2 oldestFirst questions
    refine List.ext_getElem? fun place => hplaces place fun _ _ => ?_
    have htaken := storedIn_take_le (conversed.2.converse oldestFirst questions).1 place
    have hlast : storedIn conversed.1 +
        storedIn ((conversed.2.converse oldestFirst questions).1.take place) < 2 ^ 32 - 1 := by
      omega
    exact hlast

end ShaderScope
