import ShaderScope.Table.Rejection

/-!
# Scopes

A scope stores symbols under distinct keys, together with the plain names of the
functions declared in it. A function's key is its signature, so that a question
about a function by its name alone is answered from the names.

## Implementation notes

Entries are looked up by their keys. Only a question by identity goes through all of
them, and in which order is up to how they are kept. That order is a parameter.
-/

namespace ShaderScope

/-- The symbols of one scope, newest first, and the names of its functions. -/
structure Scope (ν : Type) where
  entries : List (ν × Symbol ν)
  functionNames : List ν
  keys_nodup : (entries.map Prod.fst).Nodup

/-- An order in which all entries of a scope are visited. It may depend on the keys,
and on when the entries were stored. -/
structure Scan (ν : Type) where
  order : List (ν × Symbol ν) → List (ν × Symbol ν)
  perm : ∀ entries, (order entries).Perm entries

/-- Visit the entries from the newest to the oldest. -/
def Scan.newestFirst {ν : Type} : Scan ν where
  order := id
  perm := List.Perm.refl

namespace Scope

variable {ν : Type}

/-- The scope without any symbol. -/
def empty : Scope ν where
  entries := []
  functionNames := []
  keys_nodup := List.nodup_nil

/-- The number of stored symbols. -/
def size (scope : Scope ν) : Nat :=
  scope.entries.length

/-- No symbol is stored. -/
def isEmpty (scope : Scope ν) : Bool :=
  scope.entries.isEmpty

/-- The stored symbols, newest first. -/
def symbols (scope : Scope ν) : List (Symbol ν) :=
  scope.entries.map Prod.snd

/-- The first symbol with an identity that a scan comes across. -/
def byId? (scope : Scope ν) (id : SymbolId) (scan : Scan ν := .newestFirst) :
    Option (Symbol ν) :=
  ((scan.order scope.entries).map Prod.snd).find? (fun s => s.id == id)

variable [DecidableEq ν]

/-- The symbol under a key. -/
def find? (scope : Scope ν) (key : ν) : Option (Symbol ν) :=
  scope.entries.lookup key

theorem find?_empty (key : ν) : (empty : Scope ν).find? key = none :=
  rfl

theorem find?_eq_none_iff (scope : Scope ν) (key : ν) :
    scope.find? key = none ↔ key ∉ scope.entries.map Prod.fst := by
  unfold find?
  induction scope.entries with
  | nil => simp
  | cons entry rest ih =>
      obtain ⟨k, s⟩ := entry
      by_cases hk : key = k
      · simp [hk]
      · have hne : (key == k) = false := by simp [hk]
        simp only [List.lookup_cons, hne, List.map_cons, List.mem_cons, hk, false_or]
        exact ih

/-- Store a symbol under a key that is not there yet. -/
def store (scope : Scope ν) (key : ν) (symbol : Symbol ν) (free : scope.find? key = none) :
    Scope ν where
  entries := (key, symbol) :: scope.entries
  functionNames := scope.functionNames
  keys_nodup := List.nodup_cons.mpr ⟨(scope.find?_eq_none_iff key).mp free, scope.keys_nodup⟩

theorem find?_store (scope : Scope ν) (key : ν) (symbol : Symbol ν)
    (free : scope.find? key = none) (other : ν) :
    (scope.store key symbol free).find? other =
      if other = key then some symbol else scope.find? other := by
  unfold find? store
  by_cases h : other = key
  · simp [h]
  · have hne : (other == key) = false := by simp [h]
    simp only [List.lookup_cons, hne, h, if_false]

/-- Store a symbol under a key. A key that is taken is refused. -/
def insert (scope : Scope ν) (key : ν) (symbol : Symbol ν) :
    Except (Rejection ν) (Scope ν) :=
  match h : scope.find? key with
  | some existing => .error (.redeclared symbol.name existing.id)
  | none => .ok (scope.store key symbol h)

theorem insert_of_find? {scope : Scope ν} {key : ν} {existing : Symbol ν}
    (h : scope.find? key = some existing) (symbol : Symbol ν) :
    scope.insert key symbol = .error (.redeclared symbol.name existing.id) := by
  unfold insert
  split
  · next found hfound =>
      rw [h] at hfound
      cases hfound
      rfl
  · next hnone =>
      rw [h] at hnone
      cases hnone

theorem insert_of_free {scope : Scope ν} {key : ν} (h : scope.find? key = none)
    (symbol : Symbol ν) : scope.insert key symbol = .ok (scope.store key symbol h) := by
  unfold insert
  split
  · next found hfound =>
      rw [h] at hfound
      cases hfound
  · rfl

/-- Record that a function of this name is declared here. -/
def markFunction (scope : Scope ν) (name : ν) : Scope ν :=
  { scope with functionNames := scope.functionNames.insert name }

/-- A function of this name has been recorded. -/
def hasFunction (scope : Scope ν) (name : ν) : Bool :=
  scope.functionNames.contains name

theorem hasFunction_markFunction (scope : Scope ν) (name other : ν) :
    (scope.markFunction name).hasFunction other = (other == name || scope.hasFunction other) := by
  by_cases h : other = name
  · simp [hasFunction, markFunction, h]
  · simp [hasFunction, markFunction, h]

/-- Store a symbol and, if it is a function, its name. -/
def declare (scope : Scope ν) (key : ν) (symbol : Symbol ν) :
    Except (Rejection ν) (Scope ν) :=
  (scope.insert key symbol).map
    (fun stored => if symbol.isFunction then stored.markFunction symbol.name else stored)

/-- Change the symbol under a key, which stays under that key. -/
def modify (scope : Scope ν) (key : ν) (change : Symbol ν → Symbol ν) : Scope ν where
  entries := scope.entries.map (fun (k, s) => if k = key then (k, change s) else (k, s))
  functionNames := scope.functionNames
  keys_nodup := by
    have hkeys : (scope.entries.map (fun (k, s) => if k = key then (k, change s) else (k, s))).map
        Prod.fst = scope.entries.map Prod.fst := by
      rw [List.map_map]
      apply List.map_congr_left
      rintro ⟨k, s⟩ _
      by_cases hk : k = key <;> simp [hk]
    rw [hkeys]
    exact scope.keys_nodup

theorem find?_modify (scope : Scope ν) (key : ν) (change : Symbol ν → Symbol ν) (other : ν) :
    (scope.modify key change).find? other =
      if other = key then (scope.find? other).map change else scope.find? other := by
  change (scope.entries.map _).lookup other = _
  unfold find?
  induction scope.entries with
  | nil => simp
  | cons entry rest ih =>
      obtain ⟨k, s⟩ := entry
      by_cases ho : other = k
      · subst ho
        by_cases hk : other = key <;> simp [hk]
      · have hne : (other == k) = false := by simp [ho]
        by_cases hk : k = key
        · subst hk
          simp only [List.map_cons, List.lookup_cons, if_true, hne]
          exact ih
        · simp only [List.map_cons, List.lookup_cons, hk, if_false, hne]
          exact ih

end Scope

end ShaderScope
