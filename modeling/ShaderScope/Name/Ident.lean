/-!
# Identifiers

An identifier is a handle for a string that a pool has stored: the shard that
holds the string and the slot inside that shard. Handles are compared instead of
the strings they stand for.
-/

namespace ShaderScope

/-- The number of shards over which a pool spreads its strings. -/
abbrev shardCount : Nat := 16

/-- A handle for a pooled string. -/
structure Ident where
  shard : Fin shardCount
  slot : Nat
  deriving DecidableEq

namespace Ident

/-- The greatest slot that fits beside a shard into a 32-bit word. -/
def maxSlot : Nat := 268435455

/-- The handle of the empty string, which every pool stores first. -/
def empty : Ident := ⟨0, 0⟩

/-- The handle is that of the empty string. -/
def isEmpty (i : Ident) : Bool :=
  i == empty

/-- The handle as one word: the shard in the top four bits, the slot below. -/
def raw (i : Ident) : UInt32 :=
  UInt32.ofNat (i.shard.val * (maxSlot + 1) + i.slot)

/-- The handle that a word stands for, issued or not. -/
def ofRaw (word : UInt32) : Ident where
  shard := ⟨word.toNat / (maxSlot + 1), by
    have := word.toNat_lt
    simp only [maxSlot, shardCount]
    omega⟩
  slot := word.toNat % (maxSlot + 1)

theorem slot_ofRaw_le (word : UInt32) : (ofRaw word).slot ≤ maxSlot := by
  simp only [ofRaw, maxSlot]
  omega

theorem raw_ofRaw (word : UInt32) : (ofRaw word).raw = word := by
  apply UInt32.toNat_inj.mp
  have := word.toNat_lt
  simp only [raw, ofRaw, maxSlot, UInt32.toNat_ofNat']
  omega

theorem ofRaw_raw {i : Ident} (h : i.slot ≤ maxSlot) : ofRaw i.raw = i := by
  obtain ⟨⟨shard, hshard⟩, slot⟩ := i
  simp only [maxSlot, shardCount] at h hshard
  simp only [ofRaw, raw, maxSlot, UInt32.toNat_ofNat', mk.injEq, Fin.mk.injEq]
  omega

/-- Handles are ordered by shard, then by slot, as their words are. -/
instance : Ord Ident where
  compare i j := (compare i.shard.val j.shard.val).then (compare i.slot j.slot)

/-- The handle as text, for diagnostics that must not depend on a pool. -/
def label (i : Ident) : String :=
  "Name(" ++ toString i.shard.val ++ ":" ++ toString i.slot ++ ")"

end Ident

end ShaderScope
