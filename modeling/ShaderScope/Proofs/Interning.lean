import Mathlib.Algebra.BigOperators.Group.Finset.Piecewise
import Mathlib.Algebra.Order.BigOperators.Group.Finset
import Mathlib.Data.Finset.Dedup
import ShaderScope.Name.Call
import ShaderScope.Proofs.Issued

/-!
# Interning

A pool hands out one identifier for each string and one string for each identifier,
and never takes anything back. Over a run of calls it knows exactly the strings that
it started with or was asked to store, and has issued exactly the words that it
answered with. Its count is the number of these strings.
-/

namespace ShaderScope

open scoped BigOperators

namespace Pool

/-- The string has an identifier. -/
def Stored (pool : Pool) (s : String) : Prop :=
  ∃ i, pool.text? i = some s

theorem stored_iff_isSome_ident? {pool : Pool} {s : String} :
    pool.Stored s ↔ (pool.ident? s).isSome := by
  unfold Stored
  simp only [← ident?_iff, Option.isSome_iff_exists]

theorem issued_iff_slot_lt {pool : Pool} {i : Ident} :
    pool.Issued i ↔ i.slot < pool.shardSize i.shard := by
  have hnone : pool.text? i = none ↔ pool.shardSize i.shard ≤ i.slot :=
    Shard.text?_eq_none_iff _ _
  rw [Issued, ← Option.isSome_iff_exists, ← Option.ne_none_iff_isSome, ne_eq, hnone,
    Nat.not_le]

/-- No shard loses a string. -/
theorem Grows.shardSize_le {p q : Pool} (h : p.Grows q) (k : Fin shardCount) :
    p.shardSize k ≤ q.shardSize k := by
  apply Nat.le_of_not_lt
  intro hlt
  have hissued : p.Issued ⟨k, q.shardSize k⟩ := issued_iff_slot_lt.mpr hlt
  exact Nat.lt_irrefl _ (issued_iff_slot_lt.mp (hissued.mono h))

/-! ## One string more -/

/-- A string is found, or it is put behind the last one of its shard. -/
theorem intern_cases (pool : Pool) (s : String) :
    (∃ i, pool.ident? s = some i ∧ pool.intern s = (i, pool)) ∨
      ∃ fresh, pool.ident? s = none ∧
        pool.intern s = (⟨homeShard s, pool.shardSize (homeShard s)⟩, pool.push s fresh) := by
  cases h : pool.ident? s with
  | some i => exact .inl ⟨i, rfl, intern_of_ident? h⟩
  | none =>
      have fresh : pool.shards[homeShard s].slot? s = none := Option.map_eq_none_iff.mp h
      refine .inr ⟨fresh, rfl, ?_⟩
      unfold intern
      split
      · next slot hslot =>
          rw [fresh] at hslot
          cases hslot
      · rfl

theorem issued_intern_iff (pool : Pool) (s : String) (i : Ident) :
    (pool.intern s).2.Issued i ↔ pool.Issued i ∨ i = (pool.intern s).1 := by
  rcases pool.intern_cases s with ⟨j, hj, hintern⟩ | ⟨fresh, -, hintern⟩
  · have hissued : pool.Issued j := ⟨s, (pool.ident?_iff s j).mp hj⟩
    rw [hintern]
    exact ⟨.inl, fun h => h.elim id (fun hi => hi ▸ hissued)⟩
  · rw [hintern, Issued, Issued]
    simp only [text?_push]
    by_cases hi : i = ⟨homeShard s, pool.shardSize (homeShard s)⟩
    · simp only [hi, if_true, or_true, iff_true]
      exact ⟨s, rfl⟩
    · simp only [hi, if_false, or_false]

theorem stored_intern_iff (pool : Pool) (s t : String) :
    (pool.intern s).2.Stored t ↔ pool.Stored t ∨ t = s := by
  constructor
  · rintro ⟨i, hi⟩
    rcases (pool.issued_intern_iff s i).mp ⟨t, hi⟩ with ⟨u, hu⟩ | rfl
    · rw [pool.grows_intern s i u hu] at hi
      cases hi
      exact .inl ⟨i, hu⟩
    · rw [text?_intern_self] at hi
      cases hi
      exact .inr rfl
  · rintro (⟨i, hi⟩ | rfl)
    · exact ⟨i, pool.grows_intern s i t hi⟩
    · exact ⟨_, pool.text?_intern_self t⟩

theorem size_intern_of_stored {pool : Pool} {s : String} (h : pool.Stored s) :
    (pool.intern s).2.size = pool.size := by
  obtain ⟨i, hi⟩ := h
  rw [intern_of_ident? ((pool.ident?_iff s i).mpr hi)]

theorem size_intern_of_not_stored {pool : Pool} {s : String} (h : ¬ pool.Stored s) :
    (pool.intern s).2.size = pool.size + 1 := by
  rcases pool.intern_cases s with ⟨i, hi, -⟩ | ⟨fresh, -, hintern⟩
  · exact absurd ⟨i, (pool.ident?_iff s i).mp hi⟩ h
  · rw [hintern]
    rfl

/-- A new string is found behind the last one of its shard. -/
theorem ident?_intern_of_not_stored {pool : Pool} {s : String} (h : ¬ pool.Stored s) :
    (pool.intern s).2.ident? s = some ⟨homeShard s, pool.shardSize (homeShard s)⟩ := by
  rcases pool.intern_cases s with ⟨i, hi, -⟩ | ⟨fresh, -, hintern⟩
  · exact absurd ⟨i, (pool.ident?_iff s i).mp hi⟩ h
  · have hself := pool.text?_intern_self s
    rw [hintern] at hself
    rw [hintern]
    exact (ident?_iff _ s _).mpr hself

theorem shardSize_intern_of_not_stored {pool : Pool} {s : String} (h : ¬ pool.Stored s)
    (k : Fin shardCount) :
    (pool.intern s).2.shardSize k = pool.shardSize k + if homeShard s = k then 1 else 0 := by
  rcases pool.intern_cases s with ⟨i, hi, -⟩ | ⟨fresh, -, hintern⟩
  · exact absurd ⟨i, (pool.ident?_iff s i).mp hi⟩ h
  · rw [hintern]
    exact shardSize_push pool s fresh k

theorem size_intern_le (pool : Pool) (s : String) : (pool.intern s).2.size ≤ pool.size + 1 := by
  by_cases h : pool.Stored s
  · rw [size_intern_of_stored h]
    exact Nat.le_succ _
  · rw [size_intern_of_not_stored h]

/-- The count is what the shards hold. -/
def Counted (pool : Pool) : Prop :=
  pool.size = ∑ k : Fin shardCount, pool.shardSize k

theorem not_stored_blank (s : String) : ¬ blank.Stored s := by
  simp [Stored, text?, blank, Shard.text?_empty]

theorem shardSize_blank (k : Fin shardCount) : blank.shardSize k = 0 := by
  simp [shardSize, blank, Shard.empty, Shard.size]

theorem Counted.blank : Counted .blank := by
  simp only [Counted, shardSize_blank, Finset.sum_const_zero]
  rfl

theorem Counted.intern {pool : Pool} (h : pool.Counted) (s : String) :
    (pool.intern s).2.Counted := by
  rcases pool.intern_cases s with ⟨i, -, hintern⟩ | ⟨fresh, -, hintern⟩
  · rw [hintern]
    exact h
  · rw [hintern, Counted]
    calc
      (pool.push s fresh).size = pool.size + 1 := rfl
      _ = (∑ k : Fin shardCount, pool.shardSize k) + 1 := by rw [h]
      _ = ∑ k : Fin shardCount, (pool.push s fresh).shardSize k := by
        simp only [shardSize_push, Finset.sum_add_distrib, Finset.sum_ite_eq, Finset.mem_univ, if_true]

theorem Counted.shardSize_le {pool : Pool} (h : pool.Counted) (k : Fin shardCount) :
    pool.shardSize k ≤ pool.size :=
  calc
    pool.shardSize k ≤ ∑ l : Fin shardCount, pool.shardSize l :=
      Finset.single_le_sum (f := fun l : Fin shardCount => pool.shardSize l)
        (fun _ _ => Nat.zero_le _) (Finset.mem_univ k)
    _ = pool.size := Eq.symm h

/-- At most so many strings are stored, and the count is right. -/
structure HasAtMost (pool : Pool) (n : Nat) : Prop where
  counted : pool.Counted
  size_le : pool.size ≤ n

namespace HasAtMost

variable {pool : Pool} {m n : Nat}

theorem blank : HasAtMost .blank 0 :=
  ⟨Counted.blank, Nat.le_refl 0⟩

theorem mono (h : pool.HasAtMost m) (hle : m ≤ n) : pool.HasAtMost n :=
  ⟨h.counted, Nat.le_trans h.size_le hle⟩

theorem intern (h : pool.HasAtMost n) (s : String) : (pool.intern s).2.HasAtMost (n + 1) :=
  ⟨h.counted.intern s, Nat.le_trans (pool.size_intern_le s) (Nat.succ_le_succ h.size_le)⟩

theorem internAll (h : pool.HasAtMost n) (strings : List String) :
    (pool.internAll strings).2.HasAtMost (n + strings.length) := by
  induction strings generalizing pool n with
  | nil => exact h
  | cons s rest ih =>
      rw [List.length_cons, Nat.add_comm rest.length, ← Nat.add_assoc]
      exact ih (h.intern s)

theorem shardSize_le (h : pool.HasAtMost n) (k : Fin shardCount) : pool.shardSize k ≤ n :=
  Nat.le_trans (h.counted.shardSize_le k) h.size_le

end HasAtMost

/-! ## One call more -/

/-- No shard is full. -/
def HasRoom (pool : Pool) : Prop :=
  ∀ k : Fin shardCount, pool.shardSize k < 2 ^ 28

theorem HasRoom.of_grows {p q : Pool} (h : q.HasRoom) (hgrows : p.Grows q) : p.HasRoom :=
  fun k => Nat.lt_of_le_of_lt (hgrows.shardSize_le k) (h k)

/-- The slot of a string fits into a word, also that of one string more. -/
theorem HasRoom.slot_intern_le {pool : Pool} (h : pool.HasRoom) (s : String) :
    (pool.intern s).1.slot ≤ Ident.maxSlot := by
  have hslot : ∀ k : Fin shardCount, pool.shardSize k ≤ Ident.maxSlot :=
    fun k => Nat.le_of_lt_succ (h k)
  rcases pool.intern_cases s with ⟨i, hi, hintern⟩ | ⟨fresh, -, hintern⟩
  · have hissued : pool.Issued i := ⟨s, (pool.ident?_iff s i).mp hi⟩
    rw [hintern]
    exact Nat.le_trans (Nat.le_of_lt (issued_iff_slot_lt.mp hissued)) (hslot _)
  · rw [hintern]
    exact hslot _

/-- Every slot that has been issued fits into a word, so that no string has been refused
so far. -/
def Fits (pool : Pool) : Prop :=
  ∀ k : Fin shardCount, pool.shardSize k ≤ Ident.maxSlot + 1

theorem Fits.of_grows {p q : Pool} (h : q.Fits) (hgrows : p.Grows q) : p.Fits :=
  fun k => Nat.le_trans (hgrows.shardSize_le k) (h k)

theorem HasAtMost.fits {pool : Pool} {n : Nat} (h : pool.HasAtMost n)
    (hle : n ≤ Ident.maxSlot + 1) : pool.Fits :=
  fun k => Nat.le_trans (h.shardSize_le k) hle

/-- An issued identifier can be kept as a word. -/
theorem Fits.ofRaw_raw {pool : Pool} (h : pool.Fits) {i : Ident} (hi : pool.Issued i) :
    Ident.ofRaw i.raw = i := by
  have hslot := issued_iff_slot_lt.mp hi
  exact Ident.ofRaw_raw (Nat.le_of_lt_succ (Nat.lt_of_lt_of_le hslot (h i.shard)))

/-- Slots fit after one string more exactly if that string is not refused. -/
theorem Fits.intern_iff {pool : Pool} (h : pool.Fits) (s : String) :
    (pool.intern s).2.Fits ↔ pool.tryIntern s = .ok (pool.intern s) := by
  unfold tryIntern
  rcases pool.intern_cases s with ⟨i, hi, hintern⟩ | ⟨fresh, -, hintern⟩
  · obtain ⟨slot, hslot, -⟩ := Option.map_eq_some_iff.mp hi
    simp only [hintern, hslot, Option.isNone_some, Bool.false_eq_true, false_and, if_false, h]
  · simp only [hintern, fresh, Option.isNone_none, true_and, ite_eq_right_iff, reduceCtorEq,
      imp_false, Nat.not_lt]
    change _ ↔ pool.shardSize (homeShard s) ≤ Ident.maxSlot
    constructor
    · intro hfits
      have hhome := hfits (homeShard s)
      rw [shardSize_push, if_pos rfl] at hhome
      exact Nat.le_of_succ_le_succ hhome
    · intro hhome k
      rw [shardSize_push]
      split
      · next heq => exact heq ▸ Nat.succ_le_succ hhome
      · exact h k

/-- Calls that store a string differ at most in how they refuse it. -/
theorem exists_perform_eq_answerIntern (pool : Pool) {call : Call} {s : String}
    (hcall : call.stored? = some s) :
    ∃ refusal, pool.perform call = pool.answerIntern refusal s := by
  cases call with
  | intern t =>
      cases hcall
      exact ⟨.stopped, rfl⟩
  | internOwned t =>
      cases hcall
      exact ⟨.stopped, rfl⟩
  | tryIntern t =>
      cases hcall
      exact ⟨.refused, rfl⟩
  | tryInternOwned t =>
      cases hcall
      exact ⟨.refused, rfl⟩
  | _ => cases hcall

/-- Where there is room, a call that stores a string is answered with its word. -/
theorem HasRoom.perform {pool : Pool} (h : pool.HasRoom) {call : Call} {s : String}
    (hcall : call.stored? = some s) :
    pool.perform call = (.interned (pool.intern s).1.raw, (pool.intern s).2) := by
  have hok := tryIntern_eq_ok s (Nat.le_of_lt_succ (h (homeShard s)))
  obtain ⟨refusal, hperform⟩ := pool.exists_perform_eq_answerIntern hcall
  rw [hperform]
  simp only [answerIntern, hok]

/-- All other calls leave the pool alone and issue nothing. -/
theorem perform_of_stored?_eq_none (pool : Pool) {call : Call} (hcall : call.stored? = none) :
    (pool.perform call).2 = pool ∧ ∀ word, (pool.perform call).1 ≠ .interned word := by
  cases call with
  | ident t => exact ⟨rfl, nofun⟩
  | text word => exact ⟨rfl, nofun⟩
  | size => exact ⟨rfl, nofun⟩
  | _ => cases hcall

/-- Without room, a string may be refused, and then the pool is left alone as well. -/
theorem answerIntern_cases (pool : Pool) (refusal : Overflow → Reply) (s : String) :
    (pool.answerIntern refusal s).2 = (pool.intern s).2 ∨
      (pool.answerIntern refusal s).2 = pool := by
  unfold answerIntern tryIntern
  simp only
  split
  · next i grown hok =>
      split at hok
      · cases hok
      · exact .inl (congrArg Prod.snd (Except.ok.inj hok)).symm
  · exact .inr rfl

/-- A call stores a string, or it leaves the pool alone. -/
theorem perform_cases (pool : Pool) (call : Call) :
    (∃ s, (pool.perform call).2 = (pool.intern s).2) ∨ (pool.perform call).2 = pool := by
  cases hcall : call.stored? with
  | none => exact .inr (pool.perform_of_stored?_eq_none hcall).1
  | some s =>
      obtain ⟨refusal, hperform⟩ := pool.exists_perform_eq_answerIntern hcall
      rw [hperform]
      exact (pool.answerIntern_cases refusal s).imp (fun h => ⟨s, h⟩) id

theorem grows_perform (pool : Pool) (call : Call) : pool.Grows (pool.perform call).2 := by
  rcases pool.perform_cases call with ⟨s, h⟩ | h
  · rw [h]
    exact pool.grows_intern s
  · rw [h]
    exact Grows.refl pool

/-! ## Runs of calls -/

theorem grows_after (pool : Pool) (calls : List Call) : pool.Grows (pool.after calls) := by
  induction calls generalizing pool with
  | nil => exact Grows.refl pool
  | cons call rest ih => exact (pool.grows_perform call).trans (ih (pool.perform call).2)

theorem HasAtMost.after {pool : Pool} {n : Nat} (h : pool.HasAtMost n) (calls : List Call) :
    (pool.after calls).HasAtMost (n + calls.length) := by
  induction calls generalizing pool n with
  | nil => exact h
  | cons call rest ih =>
      have hstep : (pool.perform call).2.HasAtMost (n + 1) := by
        rcases pool.perform_cases call with ⟨s, hperform⟩ | hperform
        · rw [hperform]
          exact h.intern s
        · rw [hperform]
          exact h.mono (Nat.le_succ n)
      rw [List.length_cons, Nat.add_comm rest.length, ← Nat.add_assoc]
      exact ih hstep

/-- The pool has stored these strings and no other ones. -/
structure Holds (pool : Pool) (strings : Finset String) : Prop where
  stored : ∀ s, pool.Stored s ↔ s ∈ strings
  size : pool.size = strings.card

namespace Holds

variable {pool : Pool} {strings : Finset String}

theorem blank : Holds .blank ∅ where
  stored := fun s => iff_of_false (not_stored_blank s) (Finset.notMem_empty s)
  size := rfl

theorem intern (h : pool.Holds strings) (s : String) :
    (pool.intern s).2.Holds (insert s strings) where
  stored := by
    intro t
    rw [stored_intern_iff, h.stored, Finset.mem_insert, or_comm]
  size := by
    by_cases hs : s ∈ strings
    · rw [size_intern_of_stored ((h.stored s).mpr hs), Finset.insert_eq_of_mem hs, h.size]
    · have hnot : ¬ pool.Stored s := fun hstored => hs ((h.stored s).mp hstored)
      rw [size_intern_of_not_stored hnot, Finset.card_insert_of_notMem hs, h.size]

theorem internAll (h : pool.Holds strings) (added : List String) :
    (pool.internAll added).2.Holds (strings ∪ added.toFinset) := by
  induction added generalizing pool strings with
  | nil => simpa [Pool.internAll] using h
  | cons s rest ih =>
      have hunion : strings ∪ (s :: rest).toFinset = insert s strings ∪ rest.toFinset := by
        rw [List.toFinset_cons, Finset.union_insert, Finset.insert_union]
      rw [hunion]
      exact ih (h.intern s)

theorem after (h : pool.Holds strings) {calls : List Call} (hroom : (pool.after calls).HasRoom) :
    (pool.after calls).Holds (strings ∪ (calls.filterMap Call.stored?).toFinset) := by
  induction calls generalizing pool strings with
  | nil => simpa [Pool.after] using h
  | cons call rest ih =>
      have hstart : pool.HasRoom := hroom.of_grows (pool.grows_after (call :: rest))
      cases hcall : call.stored? with
      | none =>
          have hsame : pool.after (call :: rest) = pool.after rest := by
            rw [Pool.after, (pool.perform_of_stored?_eq_none hcall).1]
          rw [hsame] at hroom ⊢
          rw [List.filterMap_cons_none hcall]
          exact ih h hroom
      | some s =>
          have hstep : pool.after (call :: rest) = (pool.intern s).2.after rest := by
            rw [Pool.after, hstart.perform hcall]
          have hunion : strings ∪ (s :: rest.filterMap Call.stored?).toFinset =
              insert s strings ∪ (rest.filterMap Call.stored?).toFinset := by
            rw [List.toFinset_cons, Finset.union_insert, Finset.insert_union]
          rw [hstep] at hroom ⊢
          rw [List.filterMap_cons_some hcall, hunion]
          exact ih (h.intern s) hroom

end Holds

/-- What is issued after a run was issued before it, or is the answer to a call. -/
theorem issued_after_iff {pool : Pool} {calls : List Call} (hroom : (pool.after calls).HasRoom)
    (word : UInt32) :
    (pool.after calls).Issued (.ofRaw word) ↔
      pool.Issued (.ofRaw word) ∨ ∃ call, (call, .interned word) ∈ pool.trace calls := by
  induction calls generalizing pool with
  | nil => simp [after, trace]
  | cons call rest ih =>
      have hstart : pool.HasRoom := hroom.of_grows (pool.grows_after (call :: rest))
      -- Words and identifiers stand for each other, because slots fit.
      have hstep : (pool.perform call).2.Issued (.ofRaw word) ↔
          pool.Issued (.ofRaw word) ∨ (pool.perform call).1 = .interned word := by
        cases hcall : call.stored? with
        | none =>
            obtain ⟨hsame, hnot⟩ := pool.perform_of_stored?_eq_none hcall
            rw [hsame]
            exact ⟨.inl, fun h => h.elim id (fun hword => absurd hword (hnot word))⟩
        | some s =>
            have hfits := hstart.slot_intern_le s
            rw [hstart.perform hcall, issued_intern_iff, Reply.interned.injEq]
            refine or_congr_right ⟨fun h => ?_, fun h => ?_⟩
            · rw [← h, Ident.raw_ofRaw]
            · rw [← h, Ident.ofRaw_raw hfits]
      rw [after, ih hroom, hstep, or_assoc]
      refine or_congr_right ?_
      simp only [trace, List.mem_cons, Prod.mk.injEq]
      constructor
      · rintro (hfirst | ⟨other, hrest⟩)
        · exact ⟨call, .inl ⟨rfl, hfirst.symm⟩⟩
        · exact ⟨other, .inr hrest⟩
      · rintro ⟨other, ⟨-, hfirst⟩ | hrest⟩
        · exact .inl hfirst.symm
        · exact .inr ⟨other, hrest⟩

/-- A call that stores a string is answered with a word, which stands for the string
after all later calls. -/
theorem text?_of_mem_trace {pool : Pool} {calls : List Call} (hroom : (pool.after calls).HasRoom)
    {call : Call} {reply : Reply} {s : String} (hmem : (call, reply) ∈ pool.trace calls)
    (hcall : call.stored? = some s) :
    ∃ word, reply = .interned word ∧ (pool.after calls).text? (.ofRaw word) = some s := by
  induction calls generalizing pool with
  | nil => cases hmem
  | cons first rest ih =>
      have hstart : pool.HasRoom := hroom.of_grows (pool.grows_after (first :: rest))
      rcases List.mem_cons.mp hmem with heq | hrest
      · cases heq
        have hperform := hstart.perform hcall
        refine ⟨(pool.intern s).1.raw, by rw [hperform], ?_⟩
        rw [Ident.ofRaw_raw (hstart.slot_intern_le s), after, hperform]
        exact grows_after _ rest _ _ (pool.text?_intern_self s)
      · exact ih hroom hrest

/-- A word that was found for a string stands for it after all later calls as well. -/
theorem text?_of_ident_mem_trace {pool : Pool} {calls : List Call}
    (hroom : (pool.after calls).HasRoom) {s : String} {word : UInt32}
    (hmem : (.ident s, .ident (some word)) ∈ pool.trace calls) :
    (pool.after calls).text? (.ofRaw word) = some s := by
  induction calls generalizing pool with
  | nil => cases hmem
  | cons first rest ih =>
      have hstart : pool.HasRoom := hroom.of_grows (pool.grows_after (first :: rest))
      rcases List.mem_cons.mp hmem with heq | hrest
      · cases first with
        | ident t =>
            simp only [perform, Prod.mk.injEq, Call.ident.injEq, Reply.ident.injEq] at heq
            obtain ⟨rfl, hfound⟩ := heq
            obtain ⟨i, hi, rfl⟩ := Option.map_eq_some_iff.mp hfound.symm
            have htext := (pool.ident?_iff s i).mp hi
            have hslot := issued_iff_slot_lt.mp ⟨s, htext⟩
            rw [Ident.ofRaw_raw (Nat.le_of_lt_succ (Nat.lt_trans hslot (hstart _)))]
            exact grows_after _ (.ident s :: rest) _ _ htext
        | _ => cases heq
      · exact ih hroom hrest

/-! ## From the start -/

/-- The strings that every pool of a run starts with. -/
def initialStrings : List String :=
  "" :: keywords

/-- The words that are issued for these strings. -/
def initialWords : List UInt32 :=
  (blank.internAll initialStrings).1.map Ident.raw

theorem issued_internAll_iff (pool : Pool) (strings : List String) (i : Ident) :
    (pool.internAll strings).2.Issued i ↔ pool.Issued i ∨ i ∈ (pool.internAll strings).1 := by
  induction strings generalizing pool with
  | nil => simp [internAll]
  | cons s rest ih =>
      simp only [internAll, List.mem_cons]
      rw [ih, issued_intern_iff, or_assoc]

theorem hasAtMost_fresh : fresh.HasAtMost initialStrings.length := by
  have h := HasAtMost.blank.internAll initialStrings
  rwa [Nat.zero_add] at h

theorem holds_fresh : fresh.Holds initialStrings.toFinset := by
  have h := Holds.blank.internAll initialStrings
  rwa [Finset.empty_union] at h

theorem text?_empty_fresh : fresh.text? .empty = some "" := by
  have hstart : (blank.intern "").1 = .empty := by
    rcases blank.intern_cases "" with ⟨i, hi, -⟩ | ⟨_, -, hintern⟩
    · have htext := (blank.ident?_iff "" i).mp hi
      simp [text?, blank, Shard.text?_empty] at htext
    · have hhome : homeShard "" = 0 := by decide
      rw [hintern, shardSize_blank, hhome]
      rfl
  have hgrows : (blank.intern "").2.Grows fresh := blank.grows_internAll_cons "" keywords
  rw [← hstart]
  exact hgrows _ _ (blank.text?_intern_self "")

/-- The words of the start are those that are issued at the start. -/
theorem issued_fresh_iff (hroom : fresh.HasRoom) (word : UInt32) :
    fresh.Issued (.ofRaw word) ↔ word ∈ initialWords := by
  have hissued : ∀ i, fresh.Issued i ↔ i ∈ (blank.internAll initialStrings).1 := by
    intro i
    refine (issued_internAll_iff blank initialStrings i).trans ⟨fun h => ?_, .inr⟩
    rcases h with ⟨s, hs⟩ | hmem
    · simp [text?, blank, Shard.text?_empty] at hs
    · exact hmem
  rw [hissued, initialWords, List.mem_map]
  constructor
  · intro hmem
    exact ⟨_, hmem, Ident.raw_ofRaw word⟩
  · rintro ⟨i, hmem, rfl⟩
    have hslot := issued_iff_slot_lt.mp ((hissued i).mpr hmem)
    rw [Ident.ofRaw_raw (Nat.le_of_lt_succ (Nat.lt_trans hslot (hroom _)))]
    exact hmem

/-- A run that is short enough fills no shard. -/
theorem hasRoom_after {calls : List Call}
    (hlength : initialStrings.length + calls.length < 2 ^ 28) : (fresh.after calls).HasRoom :=
  fun k => Nat.lt_of_le_of_lt ((hasAtMost_fresh.after calls).shardSize_le k) hlength

/-- What a word stands for is what it is read as. -/
theorem perform_text (pool : Pool) {word : UInt32} {s : String}
    (h : pool.text? (.ofRaw word) = some s) :
    pool.perform (.text word) = (.text (some s), pool) := by
  rw [perform, h]

/-- Two words that can be read are equal exactly if their strings are. -/
theorem word_eq_iff_of_text? {pool : Pool} {word other : UInt32} {s t : String}
    (hs : pool.text? (.ofRaw word) = some s) (ht : pool.text? (.ofRaw other) = some t) :
    word = other ↔ s = t := by
  rw [← eq_iff_of_text? hs ht]
  constructor
  · exact congrArg Ident.ofRaw
  · intro h
    rw [← Ident.raw_ofRaw word, h, Ident.raw_ofRaw]

/-- A word that can be read is the answer to storing what is read. -/
theorem HasRoom.perform_of_text? {pool : Pool} (h : pool.HasRoom) {word : UInt32} {s : String}
    {call : Call} (htext : pool.text? (.ofRaw word) = some s) (hcall : call.stored? = some s) :
    pool.perform call = (.interned word, pool) := by
  have hintern := intern_of_ident? ((pool.ident?_iff s _).mpr htext)
  rw [h.perform hcall, hintern, Ident.raw_ofRaw]

/-- Words and strings are in a bijection that only ever grows. In a run from the start
that fills no shard, storing a string answers with a word that is read as that string,
then and after all later calls. Two stored strings have one word exactly if they are
equal, and the first word of all stands for the empty string. What can be found are the
strings of the start and those stored, what can be read are the words of the start and
those answered with, and storing what was found or read gives the same word again. The
size is the number of distinct strings, and all that the shards hold. -/
theorem words_biject_with_strings {calls : List Call} (hroom : (fresh.after calls).HasRoom) :
    let pool := fresh.after calls
    let trace := fresh.trace calls
    let known := initialStrings ++ calls.filterMap Call.stored?
    (∀ call s, call.stored? = some s → ∃ word grown,
      pool.perform call = (.interned word, grown) ∧
        grown.perform (.text word) = (.text (some s), grown)) ∧
    (∀ call reply s, (call, reply) ∈ trace → call.stored? = some s → ∃ word,
      reply = .interned word ∧ pool.perform (.text word) = (.text (some s), pool)) ∧
    (∀ s word, (.ident s, .ident (some word)) ∈ trace →
      pool.perform (.text word) = (.text (some s), pool)) ∧
    (∀ first second s t word other,
      (first, .interned word) ∈ trace → first.stored? = some s →
      (second, .interned other) ∈ trace → second.stored? = some t →
      (word = other ↔ s = t)) ∧
    (∀ call s word, (call, .interned word) ∈ trace → call.stored? = some s →
      (word = Ident.empty.raw ↔ s = "")) ∧
    (∀ s, ∃ found, pool.perform (.ident s) = (.ident found, pool) ∧
      (found.isSome ↔ s ∈ known) ∧
      ∀ word call, found = some word → call.stored? = some s →
        pool.perform call = (.interned word, pool)) ∧
    (∀ word, ∃ found, pool.perform (.text word) = (.text found, pool) ∧
      (found.isSome ↔ word ∈ initialWords ∨ ∃ call, (call, .interned word) ∈ trace) ∧
      ∀ s call, found = some s → call.stored? = some s →
        pool.perform call = (.interned word, pool)) ∧
    pool.perform .size = (.size known.toFinset.card, pool) ∧
    known.toFinset.card = ∑ k : Fin shardCount, pool.shardSize k := by
  intro pool trace known
  have hstart : fresh.HasRoom := hroom.of_grows (fresh.grows_after calls)
  have hholds : pool.Holds known.toFinset := by
    have h := holds_fresh.after hroom
    rwa [← List.toFinset_append] at h
  have hcounted : pool.Counted := (hasAtMost_fresh.after calls).counted
  have hempty : pool.text? (.ofRaw Ident.empty.raw) = some "" := by
    rw [Ident.ofRaw_raw (Nat.zero_le _)]
    exact fresh.grows_after calls _ _ text?_empty_fresh
  -- What calls answered is compared by reading their words at the end of the run.
  have htrace : ∀ {call : Call} {word : UInt32} {s : String}, (call, .interned word) ∈ trace →
      call.stored? = some s → pool.text? (.ofRaw word) = some s := by
    intro call word s hmem hcall
    obtain ⟨found, hfound, htext⟩ := text?_of_mem_trace hroom hmem hcall
    cases hfound
    exact htext
  refine ⟨?_, ?_, ?_, ?_, ?_, ?_, ?_, ?_, ?_⟩
  · intro call s hcall
    refine ⟨_, _, hroom.perform hcall, ?_⟩
    rw [perform, Ident.ofRaw_raw (hroom.slot_intern_le s), text?_intern_self]
  · intro call reply s hmem hcall
    obtain ⟨word, hreply, htext⟩ := text?_of_mem_trace hroom hmem hcall
    exact ⟨word, hreply, pool.perform_text htext⟩
  · intro s word hmem
    exact pool.perform_text (text?_of_ident_mem_trace hroom hmem)
  · intro first second s t word other hfirst hs hsecond ht
    exact word_eq_iff_of_text? (htrace hfirst hs) (htrace hsecond ht)
  · intro call s word hmem hcall
    exact word_eq_iff_of_text? (htrace hmem hcall) hempty
  · intro s
    refine ⟨_, rfl, ?_, ?_⟩
    · rw [Option.isSome_map, ← stored_iff_isSome_ident?, hholds.stored, List.mem_toFinset]
    · intro word call hfound hcall
      obtain ⟨i, hi, rfl⟩ := Option.map_eq_some_iff.mp hfound
      rw [hroom.perform hcall, intern_of_ident? hi]
  · intro word
    refine ⟨_, rfl, ?_, fun s call => hroom.perform_of_text?⟩
    rw [Option.isSome_iff_exists, ← issued_fresh_iff hstart]
    exact issued_after_iff hroom word
  · rw [perform, hholds.size]
  · exact hholds.size.symm.trans hcounted

/-- Two strings with the same first eight bytes live in one shard and get two words, and
one of them gets its word again when it is given away. -/
theorem words_differ_in_one_shard :
    let calls := [Call.intern "sampler2DRect", .tryIntern "sampler2DRectShadow",
      .internOwned "sampler2DRect"]
    (fresh.after calls).HasRoom ∧ homeShard "sampler2DRect" = homeShard "sampler2DRectShadow" ∧
      ∃ word other, (calls[0], .interned word) ∈ fresh.trace calls ∧
        (calls[1], .interned other) ∈ fresh.trace calls ∧ word ≠ other ∧
        (calls[2], .interned word) ∈ fresh.trace calls := by
  intro calls
  have hroom : (fresh.after calls).HasRoom := hasRoom_after (by decide)
  have hfirst : (calls[0], _) ∈ fresh.trace calls := List.mem_cons_self
  have hsecond : (calls[1], _) ∈ fresh.trace calls := List.mem_cons_of_mem _ List.mem_cons_self
  have hthird : (calls[2], _) ∈ fresh.trace calls :=
    List.mem_cons_of_mem _ (List.mem_cons_of_mem _ List.mem_cons_self)
  obtain ⟨-, hanswered, -, hsame, -⟩ := words_biject_with_strings hroom
  obtain ⟨word, hword, -⟩ := hanswered _ _ _ hfirst rfl
  obtain ⟨other, hother, -⟩ := hanswered _ _ _ hsecond rfl
  obtain ⟨again, hagain, -⟩ := hanswered _ _ _ hthird rfl
  rw [hword] at hfirst
  rw [hother] at hsecond
  rw [hagain] at hthird
  have hrepeated := (hsame _ _ _ _ _ _ hthird rfl hfirst rfl).mpr rfl
  rw [hrepeated] at hthird
  refine ⟨hroom, by decide, word, other, hfirst, hsecond, ?_, hthird⟩
  intro heq
  have hstrings := (hsame _ _ _ _ _ _ hfirst rfl hsecond rfl).mp heq
  exact absurd hstrings (by decide)

end Pool

end ShaderScope
