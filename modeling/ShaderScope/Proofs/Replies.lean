import ShaderScope.Proofs.Interning
import ShaderScope.Proofs.Reading

/-!
# Replies in strings

A table over identifiers reads as a table over strings. As long as the slots of its
pool fit into words, it replies to every request as the table over strings does, and
the tables after it read as each other again. A question by identity needs the
identities inside of a level to be distinct, because only then does it not matter in
which order the level is searched.
-/

namespace ShaderScope

/-! ## Resolved names -/

/-- Every one of the strings is stored under the identifier that it is resolved to. -/
def Pool.Resolves (pool : Pool) (f : String → Ident) (names : List String) : Prop :=
  ∀ n ∈ names, pool.text? (f n) = some n

theorem Pool.Resolves.read {pool : Pool} {f : String → Ident} {names : List String}
    (h : pool.Resolves f names) {read : Ident → String} (hread : pool.ReadBy read) :
    ∀ n ∈ names, read (f n) = n :=
  fun n hn => hread _ _ (h n hn)

/-- Where slots fit, words are as good as identifiers for the names of a request. -/
theorem Pool.Fits.resolves_internAll {pool : Pool} {names : List String}
    (hfits : (pool.internAll names).2.Fits) :
    (pool.internAll names).2.Resolves (fun s => ((pool.internAll names).2.ident s).kept)
      names := by
  intro n hn
  have hstored : (pool.internAll names).2.Stored n := by
    induction names generalizing pool with
    | nil => cases hn
    | cons s rest ih =>
        rcases List.mem_cons.mp hn with rfl | hrest
        · exact ⟨_, Pool.grows_internAll (pool.intern n).2 rest _ _ (pool.text?_intern_self n)⟩
        · exact ih hfits hrest
  obtain ⟨i, hi⟩ := hstored
  have hident : (pool.internAll names).2.ident n = i := by
    rw [ident, (Pool.ident?_iff _ _ _).mpr hi, Option.getD_some]
  dsimp only
  rw [hident, Ident.kept, hfits.ofRaw_raw ⟨n, hi⟩]
  exact hi

/-- So they are for reading an answer. -/
theorem Pool.Fits.readBy {pool : Pool} (hfits : pool.Fits) :
    pool.ReadBy fun i => pool.text i.kept := by
  intro i s hi
  dsimp only
  rw [Ident.kept, hfits.ofRaw_raw ⟨s, hi⟩]
  exact Pool.text_of_text? hi

/-! ## Replies side by side -/

/-- The levels read as those over strings, and defaults and numbers are the same. -/
structure Table.ReadsAs (table : Table) (text : TextTable) : Prop where
  levels : table.levels.ReadsAs table.pool text.levels
  defaults : text.defaults = table.defaults
  nextNumber : text.nextNumber = table.nextNumber

/-- A reply and the table after it read as those in strings. -/
structure Replied (replied : Reply Ident × Table) (text : Reply String × TextTable) : Prop where
  reply : ∀ read, replied.2.pool.ReadBy read → replied.1.map read = text.1
  table : replied.2.ReadsAs text.2

namespace Table.ReadsAs

variable {table : Table} {text : TextTable} {key : Ident} {keyText : String}
  {f : String → Ident}

theorem ofPool (pool : Pool) : (Table.ofPool pool).ReadsAs .fresh where
  levels := .fresh pool
  defaults := rfl
  nextNumber := rfl

theorem mono (h : table.ReadsAs text) {pool : Pool} (hgrows : table.pool.Grows pool) :
    { table with pool }.ReadsAs text where
  levels := h.levels.mono hgrows
  defaults := h.defaults
  nextNumber := h.nextNumber

theorem learn (h : table.ReadsAs text) (strings : List String) :
    (table.learn strings).ReadsAs text :=
  h.mono (table.pool.grows_internAll strings)

theorem current_eq (h : table.ReadsAs text) : text.current = table.current :=
  h.levels.current_eq

theorem nextId_eq (h : table.ReadsAs text) : text.nextId = table.nextId :=
  congrArg SymbolId.mk h.nextNumber

theorem store (h : table.ReadsAs text) {s : Symbol Ident} {t : Symbol String}
    (hs : s.ReadsAs table.pool t) {level other : Nat} (hother : other = level)
    (hlevel : level < table.levels.scopes.size) (hlevel' : other < text.levels.scopes.size) :
    Replied (.done (.declared (table.store level hlevel s).1), (table.store level hlevel s).2)
      (text.store other hlevel' t) := by
  subst hother
  have hgrows := s.levelKey_grows table.pool
  unfold Table.store TextTable.store
  rcases (h.levels.mono hgrows).declare hs.levelKey (hs.mono hgrows) hlevel hlevel' with
    ⟨rejection, hdeclare, hdeclare'⟩ | ⟨levels, levelsText, hdeclare, hdeclare', hlevels⟩
  · simp only [hdeclare]
    have htext := hdeclare' _ (Pool.readBy_text _)
    refine ⟨fun read hread => ?_, ?_⟩
    · simp only [hdeclare' read hread]
      rfl
    · simp only [htext]
      exact h.mono hgrows
  · simp only [hdeclare, hdeclare', hs.id_eq]
    exact ⟨fun _ _ => rfl, hlevels, h.defaults, congrArg (· + 1) h.nextNumber⟩

/-- A symbol that is declared under the next number. -/
theorem declared (h : table.ReadsAs text) {pool : Pool} {name : Ident} {nameText : String}
    (hname : pool.text? name = some nameText) {declaration : Declaration String}
    (hnames : pool.Resolves f declaration.names) :
    Symbol.ReadsAs pool ⟨table.nextId, name, declaration.map f⟩
      ⟨text.nextId, nameText, declaration⟩ where
  name := hname
  map := by
    intro read hread
    have hdeclaration := Declaration.map_map_of_names (hnames.read hread)
    rw [Symbol.map, hread _ _ hname, hdeclaration, h.nextId_eq]

/-- What a lookup comes across on both sides. -/
theorem find?_rel (h : table.ReadsAs text) (hkey : table.pool.text? key = some keyText)
    (version : Version) :
    Option.Rel (fun found other => found.1 = other.1 ∧ found.2.ReadsAs table.pool other.2)
      (table.levels.find? table.current version key)
      (text.levels.find? text.current version keyText) := by
  rw [h.current_eq]
  exact h.levels.find? hkey table.current version

theorem find (h : table.ReadsAs text) (hkey : table.pool.text? key = some keyText)
    (version : Version) {read : Ident → String} (hread : table.pool.ReadBy read) :
    (Reply.ofHit? (table.find? key version)).map read = text.find keyText version := by
  have hfind := h.find?_rel hkey version
  unfold Table.find? TextTable.find
  generalize table.levels.find? table.current version key = found,
    text.levels.find? text.current version keyText = other at hfind ⊢
  cases hfind with
  | none => rfl
  | @some found other hreads =>
      obtain ⟨level, s⟩ := found
      obtain ⟨_, t⟩ := other
      obtain ⟨rfl, hs⟩ := hreads
      simp only [Option.map_some, Reply.ofHit?, Reply.map, hs.map read hread, h.current_eq]

theorem ofSymbol? {pool : Pool} {s : Option (Symbol Ident)} {t : Option (Symbol String)}
    (h : Option.Rel (Symbol.ReadsAs pool) s t) {read : Ident → String}
    (hread : pool.ReadBy read) : (Reply.ofSymbol? s).map read = Reply.ofSymbol? t := by
  cases h with
  | none => rfl
  | some hreads => exact congrArg Reply.symbol (hreads.map read hread)

theorem findFunction (h : table.ReadsAs text) {name : String} {args : List (Ty String)}
    (hnames : table.pool.Resolves f (name :: args.flatMap Ty.names)) (version : Version)
    {read : Ident → String} (hread : table.pool.ReadBy read) :
    (Reply.ofHit? (table.findFunction? (f name) (args.map (Ty.map f)) version)).map read =
      text.find (signature id name args) version := by
  have htext := hnames.read table.pool.readBy_text
  rw [List.forall_mem_cons] at htext
  have hargs : (args.map (Ty.map f)).map (Ty.map table.pool.text) = args :=
    map_map_of_flatMap (fun t ht => Ty.map_map_of_names ht) htext.2
  have hsignature : signature table.pool.text (table.pool.text (f name)) (args.map (Ty.map f)) =
      signature id name args := by
    calc
      _ = signature (id ∘ table.pool.text) name (args.map (Ty.map f)) := by
        rw [htext.1, Function.id_comp]
      _ = signature id name ((args.map (Ty.map f)).map (Ty.map table.pool.text)) :=
        (signature_map _ _ _ _).symm
      _ = signature id name args := by rw [hargs]
  rw [Table.findFunction?, hsignature]
  cases hident : table.pool.ident? (signature id name args) with
  | some key => exact h.find ((table.pool.ident?_iff _ _).mp hident) version hread
  | none =>
      -- No stored key is a string that the pool does not have.
      have hnone := h.levels.find?_of_ident? hident text.current version
      rw [TextTable.find, hnone]
      rfl

/-- A change in place is made and shown on both sides. -/
theorem edited (h : table.ReadsAs text) (hkey : table.pool.text? key = some keyText)
    {change : Symbol Ident → Symbol Ident} {changeText : Symbol String → Symbol String}
    (hchange : ∀ s t, s.ReadsAs table.pool t → (change s).ReadsAs table.pool (changeText t)) :
    Option.Rel (fun s t => Replied
        (.done (.edited (some (change s))),
          { table with levels := table.levels.modifyCurrent key change })
        (.done (.edited (some (changeText t))),
          { text with levels := text.levels.modifyCurrent keyText changeText }))
      (table.levels.at? table.current key) (text.levels.at? text.current keyText) := by
  have hat := h.levels.at? hkey table.current
  rw [h.current_eq]
  generalize table.levels.at? table.current key = found,
    text.levels.at? table.current keyText = other at hat ⊢
  cases hat with
  | none => exact .none
  | @some s t hs =>
      refine .some ⟨fun read hread => ?_, h.levels.modifyCurrent hkey hchange, h.defaults,
        h.nextNumber⟩
      have hshown := (hchange s t hs).map read hread
      exact congrArg (fun symbol => Reply.done (.edited (some symbol))) hshown

theorem perform (h : table.ReadsAs text) (scan : Scan Ident) {action : Action String}
    (hnames : table.pool.Resolves f action.names) :
    Replied (table.reply scan (.act (action.map f))) (text.perform action) := by
  cases action with
  | openScope =>
      exact ⟨fun _ _ => rfl, h.levels.push, congrArg Defaults.push h.defaults, h.nextNumber⟩
  | closeScope =>
      have hpop := h.levels.pop?
      simp only [Table.reply, Action.map, Table.perform, Table.closeScope?, TextTable.perform]
      generalize table.levels.pop? = outer, text.levels.pop? = other at hpop ⊢
      cases hpop with
      | none => exact ⟨fun _ _ => rfl, h⟩
      | some hreads =>
          exact ⟨fun _ _ => rfl, hreads, congrArg Defaults.pop h.defaults, h.nextNumber⟩
  | declare name declaration =>
      obtain ⟨hname, hdeclaration⟩ := List.forall_mem_cons.mp hnames
      exact h.store (h.declared hname hdeclaration) h.current_eq _ _
  | rebind key version =>
      have hkey := hnames key List.mem_cons_self
      have hfind := h.find?_rel hkey version
      simp only [Table.reply, Action.map, Table.perform, Table.rebind, Table.find?,
        TextTable.perform]
      generalize table.levels.find? table.current version (f key) = found,
        text.levels.find? text.current version key = other at hfind ⊢
      cases hfind with
      | none =>
          refine ⟨fun read hread => ?_, h⟩
          exact congrArg (fun n => Reply.done (.declared (.error (.unresolved n))))
            (hread _ _ hkey)
      | @some found other hreads =>
          have hs : (found.2.rebind table.nextId).ReadsAs table.pool
              (other.2.rebind text.nextId) := by
            rw [h.nextId_eq]
            exact hreads.2.rebind table.nextId
          exact h.store hs h.current_eq _ _
  | declareBuiltin tier name declaration =>
      have hgrows := table.pool.grows_intern name
      have hgrown : (table.pool.intern name).2.Resolves f declaration.names :=
        fun n hn => hgrows _ _ (hnames n hn)
      exact (h.mono hgrows).store (h.declared (table.pool.text?_intern_self name) hgrown) rfl _ _
  | edit key edits =>
      obtain ⟨hkey, hrest⟩ := List.forall_mem_cons.mp hnames
      have hedits : ∀ read, table.pool.ReadBy read →
          (edits.map (Declaration.Edit.map f)).map (Declaration.Edit.map read) = edits :=
        fun read hread => map_map_of_flatMap
          (fun e he => Declaration.Edit.map_map_of_names he) (Pool.Resolves.read hrest hread)
      have hedited := h.edited hkey fun _ _ hs => hs.editAll hedits
      simp only [Table.reply, Action.map, Table.perform, Table.edit?, TextTable.perform]
      generalize table.levels.at? table.current (f key) = found,
        text.levels.at? text.current key = other at hedited ⊢
      cases hedited with
      | none => exact ⟨fun _ _ => rfl, h⟩
      | some hreplied => exact hreplied
  | setDefault specifier precision =>
      have htakes : (specifier.map f).takesDefault = specifier.takesDefault := rfl
      simp only [Table.reply, Action.map, Table.perform, Table.setDefaultPrecision?,
        TextTable.perform, htakes]
      cases specifier.takesDefault with
      | false => exact ⟨fun _ _ => rfl, h⟩
      | true =>
          exact ⟨fun _ _ => rfl, h.levels, congrArg (fun d => Defaults.set d _ _) h.defaults, h.nextNumber⟩
  | intern s =>
      refine ⟨fun read hread => ?_, h.mono (table.pool.grows_intern s)⟩
      have htext := hread _ _ (table.pool.text?_intern_self s)
      exact congrArg (fun n => Reply.done (.interned n)) htext

theorem reply (h : table.ReadsAs text) (scan : Scan Ident) {request : Request String}
    (hnames : table.pool.Resolves f request.names)
    (hidentified : ∀ id, request = .symbol id → table.levels.Identified) :
    Replied (table.reply scan (request.map f)) (text.reply request) := by
  cases request with
  | act action => exact h.perform scan hnames
  | replace key declaration =>
      obtain ⟨hkey, hrest⟩ := List.forall_mem_cons.mp hnames
      have hdeclaration : ∀ read, table.pool.ReadBy read →
          (declaration.map f).map read = declaration :=
        fun read hread => Declaration.map_map_of_names (Pool.Resolves.read hrest hread)
      have hedited := h.edited hkey fun _ _ hs => hs.replace hdeclaration
      simp only [Table.reply, Request.map, TextTable.reply]
      generalize table.levels.at? table.current (f key) = found,
        text.levels.at? text.current key = other at hedited ⊢
      cases hedited with
      | none => exact ⟨fun _ _ => rfl, h⟩
      | some hreplied => exact hreplied
  | find key version => exact ⟨fun _ => h.find (hnames key List.mem_cons_self) version, h⟩
  | findBuiltin key version =>
      refine ⟨fun _ => ofSymbol? ?_, h⟩
      have hfind := h.levels.find? (hnames key List.mem_cons_self) lastTierLevel version
      unfold Table.findBuiltin?
      generalize table.levels.find? lastTierLevel version (f key) = found,
        text.levels.find? lastTierLevel version key = other at hfind ⊢
      cases hfind with
      | none => exact .none
      | some hreads => exact .some hreads.2
  | findFunction name args version => exact ⟨fun _ => h.findFunction hnames version, h⟩
  | hasBuiltinFunction name version =>
      have hfunction := h.levels.tiersHaveFunction (hnames name List.mem_cons_self) version
      exact ⟨fun _ _ => congrArg Reply.flag hfunction.symm, h⟩
  | symbol id =>
      refine ⟨fun _ => ofSymbol? ?_, h⟩
      rw [Table.symbol?, (hidentified id rfl).byId?_eq]
      exact h.levels.byId? id
  | defaultPrecision kind =>
      exact ⟨fun _ _ => congrArg (fun d => Reply.precision (Defaults.get d kind)) h.defaults.symm, h⟩

end Table.ReadsAs

/-- A run over identifiers reads as the same run over strings. -/
theorem Table.ReadsAs.after {table : Table} {text : TextTable} (h : table.ReadsAs text)
    {f : String → Ident} (actions : List (Action String))
    (hnames : table.pool.Resolves f (actions.flatMap Action.names)) :
    (table.after (actions.map (Action.map f))).ReadsAs
      (actions.foldl (fun text action => (text.perform action).2) text) := by
  induction actions generalizing table text with
  | nil => exact h
  | cons action rest ih =>
      obtain ⟨hfirst, hrest⟩ := List.forall_mem_append.mp hnames
      have hgrows := grows_of_effect (table.effect_perform (action.map f))
      exact ih (h.perform .newestFirst hfirst).table fun n hn => hgrows _ _ (hrest n hn)

/-- A call is resolved at one level on both sides. -/
theorem Table.ReadsAs.level_findFunction? {table : Table} {text : TextTable}
    (h : table.ReadsAs text) {f : String → Ident} {name : String} {args : List (Ty String)}
    (hnames : table.pool.Resolves f (name :: args.flatMap Ty.names)) (version : Version) :
    (table.findFunction? (f name) (args.map (Ty.map f)) version).map Hit.level =
      (text.levels.find? text.current version (signature id name args)).map Prod.fst := by
  have hreply := h.findFunction hnames version table.pool.readBy_text
  unfold TextTable.find at hreply
  generalize table.findFunction? (f name) (args.map (Ty.map f)) version = hit,
    text.levels.find? text.current version (signature id name args) = found at hreply ⊢
  cases hit with
  | none =>
      cases found with
      | none => rfl
      | some found => cases hreply
  | some hit =>
      cases found with
      | none => cases hreply
      | some found =>
          simp only [Reply.ofHit?, Reply.map, Reply.hit.injEq] at hreply
          exact congrArg some hreply.2.1

end ShaderScope
