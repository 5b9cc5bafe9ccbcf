import Std.Data.HashMap

/-!
# One shard of a pool

A shard stores distinct strings in the order in which they arrived, and an index
from each string back to its slot.
-/

namespace ShaderScope

/-- Stored strings together with the index that finds their slots. -/
structure Shard where
  strings : Array String
  index : Std.HashMap String Nat
  index_iff : ∀ (s : String) (i : Nat), index[s]? = some i ↔ strings[i]? = some s

namespace Shard

/-- The shard without any string. -/
def empty : Shard where
  strings := #[]
  index := ∅
  index_iff := by simp

/-- The slot of a string. -/
def slot? (shard : Shard) (s : String) : Option Nat :=
  shard.index[s]?

/-- The string in a slot. -/
def text? (shard : Shard) (slot : Nat) : Option String :=
  shard.strings[slot]?

/-- The number of strings, and the slot of the next one. -/
def size (shard : Shard) : Nat :=
  shard.strings.size

theorem slot?_iff (shard : Shard) (s : String) (i : Nat) :
    shard.slot? s = some i ↔ shard.text? i = some s :=
  shard.index_iff s i

theorem text?_empty (i : Nat) : empty.text? i = none := by
  simp [text?, empty]

theorem slot?_eq_none_iff (shard : Shard) (s : String) :
    shard.slot? s = none ↔ ∀ i, shard.text? i ≠ some s := by
  constructor
  · intro h i hi
    rw [(shard.slot?_iff s i).mpr hi] at h
    cases h
  · intro h
    cases hs : shard.slot? s with
    | none => rfl
    | some i => exact absurd ((shard.slot?_iff s i).mp hs) (h i)

theorem text?_eq_none_iff (shard : Shard) (i : Nat) : shard.text? i = none ↔ shard.size ≤ i := by
  simp [text?, size]

/-- Store a string that is not there yet, in the slot after the last one. -/
def push (shard : Shard) (s : String) (fresh : shard.slot? s = none) : Shard :=
  let slot := shard.strings.size
  { strings := shard.strings.push s
    index := shard.index.insert s slot
    index_iff := by
      intro t i
      have hold := (shard.slot?_eq_none_iff s).mp fresh
      rw [Std.HashMap.getElem?_insert, Array.getElem?_push]
      by_cases hst : s = t
      · subst hst
        simp only [beq_self_eq_true, if_true, Option.some.injEq]
        constructor
        · intro hi
          have hlast : shard.strings.size = i := hi
          simp [hlast.symm]
        · intro hi
          split at hi
          · next h => exact h.symm
          · exact absurd hi (hold i)
      · simp only [beq_iff_eq, hst, if_false]
        rw [shard.index_iff t i]
        split
        · next h =>
            subst h
            simp [hst]
        · rfl }

theorem text?_push (shard : Shard) (s : String) (fresh : shard.slot? s = none) (i : Nat) :
    (shard.push s fresh).text? i = if i = shard.size then some s else shard.text? i :=
  Array.getElem?_push

theorem size_push (shard : Shard) (s : String) (fresh : shard.slot? s = none) :
    (shard.push s fresh).size = shard.size + 1 := by
  simp [push, size]

/-- Store a string unless it is there already. -/
def add (shard : Shard) (s : String) : Shard :=
  match h : shard.slot? s with
  | some _ => shard
  | none => shard.push s h

theorem add_eq_push {shard : Shard} {s : String} (fresh : shard.slot? s = none) :
    shard.add s = shard.push s fresh := by
  unfold add
  split
  · next slot hslot =>
      rw [fresh] at hslot
      cases hslot
  · rfl

end Shard

end ShaderScope
