import ShaderScope.Name.Ident
import ShaderScope.Name.Shard

/-!
# Pools of names

A pool stores every string once and hands out an identifier for it. A string
lives in the shard that its first bytes choose, so that finding it never looks
at another shard.

Strings are only ever added. An identifier that a pool has handed out stands for
the same string in every later state of that pool.

## Implementation notes

A shard has no limit of its own. `tryIntern` refuses a string whose slot does not fit
into a word, and until a string is refused the pool is the same with and without that
check. Statements about words suppose that it has not come to that.
-/

namespace ShaderScope

/-- The shard in which a string lives: a polynomial hash of its first eight
bytes, modulo the number of shards. -/
def homeShard (s : String) : Fin shardCount :=
  let step (hash : UInt32) (byte : UInt8) : UInt32 := hash * 31 + byte.toUInt32
  let hash := ((s.toUTF8.data.toList.take 8).foldl step 0).toNat
  ⟨hash % shardCount, Nat.mod_lt hash (by decide)⟩

/-- The strings stored so far, spread over the shards by `homeShard`, and how often
a string was stored in any of them. -/
structure Pool where
  shards : Vector Shard shardCount
  count : Nat
  home_of_text : ∀ (k : Fin shardCount) (i : Nat) (s : String),
    shards[k].text? i = some s → homeShard s = k

namespace Pool

/-- The pool without any string, not even the empty one. -/
def blank : Pool where
  shards := Vector.replicate shardCount Shard.empty
  count := 0
  home_of_text := by
    intro k i s h
    simp [Shard.text?_empty] at h

/-- The string that an identifier stands for, if the pool has handed it out. -/
def text? (pool : Pool) (i : Ident) : Option String :=
  pool.shards[i.shard].text? i.slot

/-- The string of an identifier, empty where the pool never handed it out. -/
def text (pool : Pool) (i : Ident) : String :=
  (pool.text? i).getD ""

/-- The identifier of a string, if it is stored. Nothing is added. -/
def ident? (pool : Pool) (s : String) : Option Ident :=
  (pool.shards[homeShard s].slot? s).map (⟨homeShard s, ·⟩)

theorem ident?_iff (pool : Pool) (s : String) (i : Ident) :
    pool.ident? s = some i ↔ pool.text? i = some s := by
  obtain ⟨shard, slot⟩ := i
  simp only [ident?, text?, Option.map_eq_some_iff, Ident.mk.injEq]
  constructor
  · rintro ⟨j, hj, rfl, rfl⟩
    exact (Shard.slot?_iff _ _ _).mp hj
  · intro h
    obtain rfl := pool.home_of_text shard slot s h
    exact ⟨slot, (Shard.slot?_iff _ _ _).mpr h, rfl, rfl⟩

/-- The number of strings in a shard. -/
def shardSize (pool : Pool) (k : Fin shardCount) : Nat :=
  pool.shards[k].size

/-- The number of stored strings, read off the count and not off the shards. -/
def size (pool : Pool) : Nat :=
  pool.count

/-- At most the empty string is stored. -/
def isEmpty (pool : Pool) : Bool :=
  pool.size ≤ 1

/-- The shards after a change to one of them. -/
def changeShard (shards : Vector Shard shardCount) (k : Fin shardCount)
    (change : Shard → Shard) : Vector Shard shardCount :=
  ⟨shards.toArray.modify k change, by simp⟩

theorem getElem_changeShard (shards : Vector Shard shardCount) (k : Fin shardCount)
    (change : Shard → Shard) (l : Fin shardCount) :
    (changeShard shards k change)[l] = if k = l then change shards[l] else shards[l] := by
  obtain ⟨array, hsize⟩ := shards
  simp [changeShard, Array.getElem_modify, Fin.ext_iff]

/-- Put one more string into its shard. -/
def push (pool : Pool) (s : String) (fresh : pool.shards[homeShard s].slot? s = none) : Pool where
  shards := changeShard pool.shards (homeShard s) (fun shard => shard.add s)
  count := pool.count + 1
  home_of_text := by
    intro k i t h
    rw [getElem_changeShard] at h
    split at h
    · next hk =>
        subst hk
        rw [Shard.add_eq_push fresh, Shard.text?_push] at h
        split at h
        · cases h
          rfl
        · exact pool.home_of_text _ i t h
    · exact pool.home_of_text k i t h

theorem shardSize_push (pool : Pool) (s : String)
    (fresh : pool.shards[homeShard s].slot? s = none) (k : Fin shardCount) :
    (pool.push s fresh).shardSize k = pool.shardSize k + if homeShard s = k then 1 else 0 := by
  rw [shardSize, shardSize, push, getElem_changeShard]
  split
  · next hk =>
      subst hk
      rw [Shard.add_eq_push fresh, Shard.size_push]
  · rfl

theorem text?_push (pool : Pool) (s : String)
    (fresh : pool.shards[homeShard s].slot? s = none) (i : Ident) :
    (pool.push s fresh).text? i =
      if i = ⟨homeShard s, pool.shardSize (homeShard s)⟩ then some s else pool.text? i := by
  obtain ⟨shard, slot⟩ := i
  simp only [text?, push, getElem_changeShard, shardSize]
  by_cases hk : homeShard s = shard
  · subst hk
    simp only [if_true, Shard.add_eq_push fresh, Shard.text?_push, Ident.mk.injEq, true_and]
  · have hne : ¬ shard = homeShard s := fun h => hk h.symm
    simp only [hk, if_false, Ident.mk.injEq, hne, false_and]

/-- The identifier of a string, stored now unless it was stored before. Whether its slot
fits into a word is not checked. -/
def intern (pool : Pool) (s : String) : Ident × Pool :=
  match h : pool.shards[homeShard s].slot? s with
  | some slot => (⟨homeShard s, slot⟩, pool)
  | none => (⟨homeShard s, pool.shards[homeShard s].size⟩, pool.push s h)

theorem intern_of_ident? {pool : Pool} {s : String} {i : Ident} (h : pool.ident? s = some i) :
    pool.intern s = (i, pool) := by
  obtain ⟨slot, hslot, rfl⟩ := Option.map_eq_some_iff.mp h
  unfold intern
  split
  · next j hj =>
      rw [hslot] at hj
      cases hj
      rfl
  · next hnone =>
      rw [hslot] at hnone
      cases hnone

theorem text?_intern_self (pool : Pool) (s : String) :
    (pool.intern s).2.text? (pool.intern s).1 = some s := by
  unfold intern
  split
  · next slot hslot => exact (Shard.slot?_iff _ _ _).mp hslot
  · next hnone => exact (text?_push pool s hnone _).trans (if_pos rfl)

theorem text?_intern_of_text? {pool : Pool} {i : Ident} {t : String} (s : String)
    (h : pool.text? i = some t) : (pool.intern s).2.text? i = some t := by
  unfold intern
  split
  · exact h
  · next hnone =>
      rw [text?_push, if_neg]
      · exact h
      · rintro rfl
        have hlast : pool.shards[homeShard s].text? pool.shards[homeShard s].size = none :=
          (Shard.text?_eq_none_iff _ _).mpr (Nat.le_refl _)
        exact absurd (h.symm.trans hlast) (by simp)

/-- Store several strings, from the first to the last. -/
def internAll (pool : Pool) : List String → List Ident × Pool
  | [] => ([], pool)
  | s :: rest =>
      let (i, grown) := pool.intern s
      let (others, final) := grown.internAll rest
      (i :: others, final)

/-- A shard that has no slot left for another string. -/
structure Overflow where
  shard : Nat
  count : Nat

/-- The wording of an overflow. -/
def Overflow.message (o : Overflow) : String :=
  "interner shard " ++ toString o.shard ++ " exceeded capacity: " ++ toString o.count ++
    " strings, max is " ++ toString Ident.maxSlot

/-- As `intern`, but a new string is refused once its shard has used up the
slots that fit into a word. -/
def tryIntern (pool : Pool) (s : String) : Except Overflow (Ident × Pool) :=
  let home := pool.shards[homeShard s]
  if (home.slot? s).isNone ∧ Ident.maxSlot < home.size then
    .error ⟨(homeShard s).val, home.size⟩
  else
    .ok (pool.intern s)

theorem tryIntern_eq_ok {pool : Pool} (s : String)
    (room : pool.shards[homeShard s].size ≤ Ident.maxSlot) :
    pool.tryIntern s = .ok (pool.intern s) := by
  simp only [tryIntern]
  rw [if_neg]
  omega

/-- The words of the language, and the names that the stages provide. -/
def keywords : List String :=
  ["attribute", "const", "uniform", "varying", "in", "out", "inout",
    "invariant", "centroid", "flat", "smooth", "layout",
    "precision", "lowp", "mediump", "highp",
    "break", "continue", "do", "for", "while", "switch", "case", "default",
    "if", "else", "discard", "return", "struct", "true", "false",
    "void", "bool", "int", "uint", "float",
    "vec2", "vec3", "vec4", "ivec2", "ivec3", "ivec4",
    "uvec2", "uvec3", "uvec4", "bvec2", "bvec3", "bvec4",
    "mat2", "mat3", "mat4",
    "sampler2D", "sampler3D", "samplerCube", "sampler2DArray", "samplerExternalOES",
    "sampler2DShadow", "samplerCubeShadow", "sampler2DArrayShadow",
    "main", "gl_Position", "gl_PointSize", "gl_FragCoord", "gl_FrontFacing",
    "gl_PointCoord", "gl_FragColor", "gl_FragData", "gl_FragDepth",
    "gl_InstanceID", "gl_VertexID", "gl_DepthRange", "gl_DepthRangeParameters"]

/-- The pool with which every run starts: the empty string, then the keywords. -/
def fresh : Pool :=
  (blank.internAll ("" :: keywords)).2

end Pool

end ShaderScope
