import ShaderScope.Table.Levels

/-!
# What stands where

Each operation on levels is described by the symbols that stand at each level
under each key before and after it. A lookup is described by the greatest level
that has the key.
-/

namespace ShaderScope

/-! ## The walk of a lookup -/

/-- A lookup visits levels from the top down. -/
theorem eligibleLevels_pairwise (version : Version) (top : Nat) :
    (eligibleLevels version top).Pairwise (fun level below => below < level) := by
  induction top with
  | zero => exact List.pairwise_singleton _ _
  | succ top ih =>
      have hbelow : ∀ level ∈ eligibleLevels version top, level < top + 1 := by
        intro level hlevel
        have hle := ((mem_eligibleLevels version top level).mp hlevel).1
        omega
      rw [eligibleLevels]
      split
      · exact List.pairwise_cons.mpr ⟨hbelow, ih⟩
      · exact ih

/-- A walk from above the tiers ends with the walk through the tiers. -/
theorem exists_eligibleLevels_eq_append (version : Version) {top : Nat}
    (h : lastTierLevel ≤ top) :
    ∃ above, eligibleLevels version top = above ++ eligibleLevels version lastTierLevel ∧
      ∀ level ∈ above, globalLevel ≤ level := by
  induction h with
  | refl => exact ⟨[], rfl, nofun⟩
  | @step top h ih =>
      obtain ⟨above, hwalk, habove⟩ := ih
      have hglobal : globalLevel ≤ top + 1 := Nat.succ_le_succ h
      rw [eligibleLevels, hwalk]
      split
      · exact ⟨(top + 1) :: above, rfl, List.forall_mem_cons.mpr ⟨hglobal, habove⟩⟩
      · exact ⟨above, rfl, habove⟩

/-- What is found first depends on what is found at the elements of the list. -/
theorem findSome?_congr {α β : Type} {f g : α → Option β} {xs : List α}
    (h : ∀ x ∈ xs, f x = g x) : xs.findSome? f = xs.findSome? g := by
  have hfirst := congrArg (List.findSome? id) (List.map_congr_left h)
  rw [List.findSome?_map, List.findSome?_map] at hfirst
  exact hfirst

/-! ## Scopes -/

namespace Scope

section

variable {ν : Type} {scope : Scope ν} {id : SymbolId} {scan : Scan ν} {s : Symbol ν}

/-- A scan visits the symbols of the scope and nothing else. -/
theorem mem_order_iff (scope : Scope ν) (scan : Scan ν) (s : Symbol ν) :
    s ∈ (scan.order scope.entries).map Prod.snd ↔ s ∈ scope.symbols :=
  ((scan.perm scope.entries).map Prod.snd).mem_iff

theorem mem_symbols_of_byId? (h : scope.byId? id scan = some s) :
    s ∈ scope.symbols ∧ s.id = id :=
  ⟨(scope.mem_order_iff scan s).mp (List.mem_of_find?_eq_some h),
    eq_of_beq (List.find?_some (p := fun s : Symbol ν => s.id == id) h)⟩

theorem isSome_byId?_of_mem (h : s ∈ scope.symbols) (scan : Scan ν) :
    (scope.byId? s.id scan).isSome :=
  List.find?_isSome.mpr ⟨s, (scope.mem_order_iff scan s).mpr h, beq_self_eq_true s.id⟩

/-- No two symbols of the scope have one identity. -/
def Identified (scope : Scope ν) : Prop :=
  ∀ s ∈ scope.symbols, ∀ t ∈ scope.symbols, s.id = t.id → s = t

/-- The order of a scan does not matter where identities are distinct. -/
theorem Identified.byId?_eq_some_iff (h : scope.Identified) :
    scope.byId? id scan = some s ↔ s ∈ scope.symbols ∧ s.id = id := by
  refine ⟨mem_symbols_of_byId?, ?_⟩
  rintro ⟨hmem, rfl⟩
  obtain ⟨t, ht⟩ := Option.isSome_iff_exists.mp (isSome_byId?_of_mem hmem scan)
  obtain ⟨hmem', hid⟩ := mem_symbols_of_byId? ht
  rw [h t hmem' s hmem hid] at ht
  exact ht

theorem Identified.byId?_eq (h : scope.Identified) (id : SymbolId) (scan : Scan ν) :
    scope.byId? id scan = scope.byId? id :=
  Option.ext fun _ => h.byId?_eq_some_iff.trans h.byId?_eq_some_iff.symm

end

variable {ν : Type} [DecidableEq ν]

theorem mem_entries_of_find? {scope : Scope ν} {key : ν} {s : Symbol ν}
    (h : scope.find? key = some s) : (key, s) ∈ scope.entries := by
  unfold find? at h
  generalize scope.entries = entries at h
  induction entries with
  | nil => cases h
  | cons entry rest ih =>
      obtain ⟨k, found⟩ := entry
      rw [List.lookup_cons] at h
      by_cases hk : key = k
      · simp only [hk, beq_self_eq_true] at h
        cases h
        rw [hk]
        exact List.mem_cons_self
      · have hne : (key == k) = false := by simp [hk]
        rw [hne] at h
        exact List.mem_cons_of_mem _ (ih h)

/-- Keys are distinct, so every entry is found. -/
theorem find?_of_mem_entries {scope : Scope ν} {key : ν} {s : Symbol ν}
    (h : (key, s) ∈ scope.entries) : scope.find? key = some s := by
  have hnodup := scope.keys_nodup
  unfold find?
  generalize scope.entries = entries at h hnodup ⊢
  induction entries with
  | nil => cases h
  | cons entry rest ih =>
      obtain ⟨k, found⟩ := entry
      rw [List.map_cons, List.nodup_cons] at hnodup
      rcases List.mem_cons.mp h with heq | hmem
      · cases heq
        exact List.lookup_cons_self
      · have hne : (key == k) = false := by
          apply beq_eq_false_iff_ne.mpr
          rintro rfl
          exact hnodup.1 (List.mem_map.mpr ⟨_, hmem, rfl⟩)
        rw [List.lookup_cons, hne]
        exact ih hmem hnodup.2

/-- The symbols of a scope are those that stand under some key. -/
theorem mem_symbols_iff {scope : Scope ν} {s : Symbol ν} :
    s ∈ scope.symbols ↔ ∃ key, scope.find? key = some s := by
  constructor
  · intro h
    obtain ⟨⟨key, found⟩, hmem, rfl⟩ := List.mem_map.mp h
    exact ⟨key, find?_of_mem_entries hmem⟩
  · rintro ⟨key, h⟩
    exact List.mem_map_of_mem (mem_entries_of_find? h)

end Scope

namespace Levels

variable {ν : Type}

/-- A symbol of a level. -/
def Holds (levels : Levels ν) (level : Nat) (s : Symbol ν) : Prop :=
  ∃ scope, levels.scope? level = some scope ∧ s ∈ scope.symbols

theorem current_add_one (levels : Levels ν) : levels.current + 1 = levels.count := by
  have h := levels.current_lt
  unfold current count at *
  omega

/-- Stacks of one height have one innermost level. -/
theorem current_eq_of_count {levels other : Levels ν} (h : levels.count = other.count) :
    levels.current = other.current :=
  congrArg (· - 1) h

/-- The innermost level lies as far above the tiers as there are scopes above them. -/
theorem current_eq_of_count_eq {levels : Levels ν} {opened : Nat}
    (h : levels.count = globalLevel + opened) : levels.current = lastTierLevel + opened := by
  have hcurrent := levels.current_add_one
  have hglobal : globalLevel = lastTierLevel + 1 := rfl
  omega

theorem globalLevel_le_count (levels : Levels ν) : globalLevel ≤ levels.count :=
  levels.tiers_le

theorem count_push (levels : Levels ν) : levels.push.count = levels.count + 1 := by
  unfold count push
  exact Array.size_push _

theorem count_set (levels : Levels ν) (level : Nat) (scope : Scope ν)
    (h : level < levels.scopes.size) : (levels.set level scope h).count = levels.count := by
  unfold count set
  exact Array.size_set h

theorem scope?_eq_none {levels : Levels ν} {level : Nat} (h : levels.count ≤ level) :
    levels.scope? level = none := by
  unfold scope?
  exact Array.getElem?_eq_none h

theorem scope?_eq_some (levels : Levels ν) {level : Nat} (h : level < levels.scopes.size) :
    levels.scope? level = some levels.scopes[level] := by
  unfold scope?
  exact Array.getElem?_eq_getElem h

theorem scope?_push (levels : Levels ν) (level : Nat) :
    levels.push.scope? level =
      if level = levels.count then some .empty else levels.scope? level := by
  unfold scope? push count
  exact Array.getElem?_push

/-- Only an open scope is closed, and all levels below it are kept. -/
theorem pop?_eq_some {levels outer : Levels ν} (h : levels.pop? = some outer) :
    outer.count + 1 = levels.count ∧
      ∀ level, outer.scope? level =
        if level < outer.count then levels.scope? level else none := by
  unfold pop? at h
  split at h
  · next hopen =>
      cases h
      unfold count scope?
      refine ⟨?_, ?_⟩
      · rw [Array.size_pop]
        omega
      · intro level
        rw [Array.getElem?_pop, Array.size_pop]
  · cases h

theorem pop?_eq_none_iff {levels : Levels ν} : levels.pop? = none ↔ levels.count ≤ globalLevel := by
  unfold pop? count
  split
  · next hopen => simp [hopen]
  · next htier => simpa using htier

/-- A symbol that is found by an identity stands somewhere and has that identity. -/
theorem exists_holds_of_byId? {levels : Levels ν} {id : SymbolId} {scan : Scan ν} {s : Symbol ν}
    (h : levels.byId? id scan = some s) : ∃ level, levels.Holds level s ∧ s.id = id := by
  obtain ⟨scope, hscope, hfind⟩ := List.exists_of_findSome?_eq_some h
  rw [List.mem_reverse, Array.mem_toList_iff] at hscope
  obtain ⟨level, hlevel, rfl⟩ := Array.getElem_of_mem hscope
  obtain ⟨hmem, hid⟩ := Scope.mem_symbols_of_byId? hfind
  exact ⟨level, ⟨_, levels.scope?_eq_some hlevel, hmem⟩, hid⟩

theorem isSome_byId?_of_holds {levels : Levels ν} {level : Nat} {s : Symbol ν}
    (h : levels.Holds level s) (scan : Scan ν) : (levels.byId? s.id scan).isSome := by
  obtain ⟨scope, hscope, hmem⟩ := h
  refine List.findSome?_isSome_iff.mpr ⟨scope, ?_, Scope.isSome_byId?_of_mem hmem scan⟩
  rw [List.mem_reverse, Array.mem_toList_iff]
  exact Array.mem_of_getElem? hscope

/-- No level has two symbols with one identity. -/
def Identified (levels : Levels ν) : Prop :=
  ∀ level scope, levels.scope? level = some scope → scope.Identified

/-- Levels are visited in their order, and inside of one level no order matters. -/
theorem Identified.byId?_eq {levels : Levels ν} (h : levels.Identified) (id : SymbolId)
    (scan : Scan ν) : levels.byId? id scan = levels.byId? id := by
  refine findSome?_congr fun scope hscope => ?_
  rw [List.mem_reverse, Array.mem_toList_iff] at hscope
  obtain ⟨level, hlevel, rfl⟩ := Array.getElem_of_mem hscope
  exact (h level _ (levels.scope?_eq_some hlevel)).byId?_eq id scan

/-- A function of the name is recorded at the level. -/
def hasFunctionAt [DecidableEq ν] (levels : Levels ν) (level : Nat) (name : ν) : Bool :=
  (levels.scope? level).any (fun scope => scope.hasFunction name)

variable [DecidableEq ν]

theorem at?_eq_some_iff {levels : Levels ν} {level : Nat} {key : ν} {s : Symbol ν} :
    levels.at? level key = some s ↔
      ∃ scope, levels.scope? level = some scope ∧ scope.find? key = some s :=
  Option.bind_eq_some_iff

/-- A symbol of a level stands under a key. -/
theorem holds_iff {levels : Levels ν} {level : Nat} {s : Symbol ν} :
    levels.Holds level s ↔ ∃ key, levels.at? level key = some s := by
  unfold Holds
  simp only [at?_eq_some_iff, Scope.mem_symbols_iff]
  constructor
  · rintro ⟨scope, hscope, key, hfind⟩
    exact ⟨key, scope, hscope, hfind⟩
  · rintro ⟨key, scope, hscope, hfind⟩
    exact ⟨scope, hscope, key, hfind⟩

/-- A symbol stands at a level that there is. -/
theorem lt_count_of_at? {levels : Levels ν} {level : Nat} {key : ν} {s : Symbol ν}
    (h : levels.at? level key = some s) : level < levels.count := by
  obtain ⟨scope, hscope, _⟩ := at?_eq_some_iff.mp h
  apply Nat.lt_of_not_le
  intro hlevel
  rw [scope?_eq_none hlevel] at hscope
  cases hscope

theorem at?_fresh (level : Nat) (key : ν) : (fresh : Levels ν).at? level key = none := by
  cases hat : (fresh : Levels ν).at? level key with
  | none => rfl
  | some s =>
      obtain ⟨scope, hscope, hfind⟩ := at?_eq_some_iff.mp hat
      have hmem : scope ∈ (#[.empty, .empty, .empty] : Array (Scope ν)) :=
        Array.mem_of_getElem? hscope
      have hempty : scope = .empty := by simpa using hmem
      rw [hempty, Scope.find?_empty] at hfind
      cases hfind

theorem at?_push (levels : Levels ν) (level : Nat) (key : ν) :
    levels.push.at? level key = levels.at? level key := by
  rw [at?, at?, scope?_push]
  split
  · next h =>
      rw [scope?_eq_none (Nat.le_of_eq h.symm)]
      rfl
  · rfl

theorem at?_pop? {levels outer : Levels ν} (h : levels.pop? = some outer) (level : Nat)
    (key : ν) :
    outer.at? level key = if level < outer.count then levels.at? level key else none := by
  rw [at?, at?, (pop?_eq_some h).2]
  split <;> rfl

theorem at?_set (levels : Levels ν) (level : Nat) (scope : Scope ν)
    (h : level < levels.scopes.size) (other : Nat) (key : ν) :
    (levels.set level scope h).at? other key =
      if other = level then scope.find? key else levels.at? other key := by
  rw [at?, at?, scope?_set]
  by_cases heq : other = level
  · simp [heq]
  · simp [heq, Ne.symm heq]

/-! ## Declaring and changing symbols -/

theorem at?_of_lt (levels : Levels ν) {level : Nat} (h : level < levels.scopes.size) (key : ν) :
    levels.at? level key = levels.scopes[level].find? key := by
  rw [at?, scope?_eq_some levels h]
  rfl

/-- A declaration is refused only for the symbol that stands in its place. -/
theorem declare_eq_error {levels : Levels ν} {level : Nat} {h : level < levels.scopes.size}
    {key : ν} {symbol : Symbol ν} {rejection : Rejection ν}
    (hdeclare : levels.declare level h key symbol = .error rejection) :
    ∃ existing, levels.at? level key = some existing ∧
      rejection = .redeclared symbol.name existing.id := by
  rw [at?_of_lt levels h]
  unfold declare Scope.declare at hdeclare
  cases hfind : levels.scopes[level].find? key with
  | none =>
      rw [Scope.insert_of_free hfind] at hdeclare
      cases hdeclare
  | some existing =>
      rw [Scope.insert_of_find? hfind] at hdeclare
      cases hdeclare
      exact ⟨existing, rfl, rfl⟩

/-- A declaration that is accepted takes a free place and no other one. -/
theorem declare_eq_ok {levels after : Levels ν} {level : Nat} {h : level < levels.scopes.size}
    {key : ν} {symbol : Symbol ν} (hdeclare : levels.declare level h key symbol = .ok after) :
    levels.at? level key = none ∧ after.count = levels.count ∧
      ∀ other k, after.at? other k =
        if other = level ∧ k = key then some symbol else levels.at? other k := by
  rw [at?_of_lt levels h]
  unfold declare Scope.declare at hdeclare
  cases hfind : levels.scopes[level].find? key with
  | some existing =>
      rw [Scope.insert_of_find? hfind] at hdeclare
      cases hdeclare
  | none =>
      rw [Scope.insert_of_free hfind] at hdeclare
      cases hdeclare
      refine ⟨rfl, count_set _ _ _ _, ?_⟩
      intro other k
      -- Recording the name of a function leaves the entries of the scope alone.
      have hmark : ∀ scope : Scope ν, (if symbol.isFunction then scope.markFunction symbol.name
          else scope).find? k = scope.find? k := by
        intro scope
        split <;> rfl
      rw [at?_set, hmark, Scope.find?_store]
      by_cases hother : other = level
      · subst hother
        rw [at?_of_lt levels h]
        simp
      · simp [hother]

/-- Storing a symbol replaces the scope of its level. -/
theorem exists_set_of_declare {levels after : Levels ν} {level : Nat}
    {h : level < levels.scopes.size} {key : ν} {symbol : Symbol ν}
    (hdeclare : levels.declare level h key symbol = .ok after) :
    ∃ scope, after = levels.set level scope h := by
  unfold declare at hdeclare
  cases hscope : levels.scopes[level].declare key symbol with
  | error rejection =>
      rw [hscope] at hdeclare
      cases hdeclare
  | ok scope =>
      rw [hscope] at hdeclare
      cases hdeclare
      exact ⟨scope, rfl⟩

theorem count_modifyCurrent (levels : Levels ν) (key : ν) (change : Symbol ν → Symbol ν) :
    (levels.modifyCurrent key change).count = levels.count :=
  count_set _ _ _ _

theorem scope?_modifyCurrent_of_lt (levels : Levels ν) (key : ν)
    (change : Symbol ν → Symbol ν) {level : Nat} (h : level < levels.current) :
    (levels.modifyCurrent key change).scope? level = levels.scope? level := by
  rw [modifyCurrent, scope?_set, if_neg (Nat.ne_of_gt h)]

theorem at?_modifyCurrent (levels : Levels ν) (key : ν) (change : Symbol ν → Symbol ν)
    (level : Nat) (k : ν) :
    (levels.modifyCurrent key change).at? level k =
      if level = levels.current ∧ k = key then (levels.at? level k).map change
      else levels.at? level k := by
  rw [modifyCurrent, at?_set, Scope.find?_modify]
  by_cases hlevel : level = levels.current
  · subst hlevel
    rw [at?_of_lt levels levels.current_lt]
    simp [innermost]
  · simp [hlevel]

/-! ## Lookups -/

/-- A lookup answers with the greatest level that it visits and that has the key. -/
theorem find?_eq_some_iff {levels : Levels ν} {top level : Nat} {version : Version} {key : ν}
    {s : Symbol ν} :
    levels.find? top version key = some (level, s) ↔
      level ∈ eligibleLevels version top ∧ levels.at? level key = some s ∧
        ∀ other ∈ eligibleLevels version top, level < other → levels.at? other key = none := by
  have hwalk := eligibleLevels_pairwise version top
  unfold find?
  rw [List.findSome?_eq_some_iff]
  constructor
  · rintro ⟨above, l, below, hsplit, hat, habove⟩
    obtain ⟨s', hs', hpair⟩ := Option.map_eq_some_iff.mp hat
    cases hpair
    rw [hsplit] at hwalk ⊢
    refine ⟨by simp, hs', ?_⟩
    intro other hother hlt
    rcases List.mem_append.mp hother with hmem | hmem
    · exact Option.map_eq_none_iff.mp (habove other hmem)
    · have htail := (List.pairwise_append.mp hwalk).2.1
      rcases List.mem_cons.mp hmem with rfl | hmem
      · omega
      · have hless := List.rel_of_pairwise_cons htail hmem
        omega
  · rintro ⟨hmem, hat, habove⟩
    obtain ⟨above, below, hsplit⟩ := List.append_of_mem hmem
    refine ⟨above, level, below, hsplit, by rw [hat]; rfl, ?_⟩
    intro other hother
    rw [hsplit] at hwalk habove
    have hgreater := (List.pairwise_append.mp hwalk).2.2 other hother level List.mem_cons_self
    rw [habove other (List.mem_append_left _ hother) hgreater]
    rfl

theorem find?_eq_none_iff {levels : Levels ν} {top : Nat} {version : Version} {key : ν} :
    levels.find? top version key = none ↔
      ∀ level ∈ eligibleLevels version top, levels.at? level key = none := by
  unfold find?
  rw [List.findSome?_eq_none_iff]
  simp only [Option.map_eq_none_iff]

/-- A lookup depends on what stands under its key at the levels that it visits. -/
theorem find?_congr {levels other : Levels ν} {top : Nat} {version : Version} {key : ν}
    (h : ∀ level ∈ eligibleLevels version top, levels.at? level key = other.at? level key) :
    levels.find? top version key = other.find? top version key :=
  findSome?_congr fun level hlevel => by rw [h level hlevel]

/-- So does the question whether the tiers have a function. -/
theorem tiersHaveFunction_congr {levels other : Levels ν} {version : Version} {name : ν}
    (h : ∀ level ∈ eligibleLevels version lastTierLevel,
      levels.hasFunctionAt level name = other.hasFunctionAt level name) :
    levels.tiersHaveFunction version name = other.tiersHaveFunction version name := by
  have hwalk := congrArg (List.any · id) (List.map_congr_left h)
  simp only [List.any_map] at hwalk
  exact hwalk

/-- Where no scope has the key, a lookup ends in the tiers. -/
theorem find?_eq_find?_tiers {levels : Levels ν} {top : Nat} {version : Version} {key : ν}
    (htop : lastTierLevel ≤ top) (h : ∀ level, globalLevel ≤ level → levels.at? level key = none) :
    levels.find? top version key = levels.find? lastTierLevel version key := by
  obtain ⟨above, hwalk, habove⟩ := exists_eligibleLevels_eq_append version htop
  have hnone : above.findSome? (fun level => (levels.at? level key).map (level, ·)) = none := by
    rw [List.findSome?_eq_none_iff]
    intro level hlevel
    rw [h level (habove level hlevel)]
    rfl
  rw [find?, hwalk, List.findSome?_append, hnone]
  rfl

end Levels

end ShaderScope
