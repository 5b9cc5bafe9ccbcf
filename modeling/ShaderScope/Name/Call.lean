import ShaderScope.Name.Pool

/-!
# Calls of a pool

What a pool is asked for while it is in use, as data. Identifiers are handed out
and handed in as words, so that any word can be asked for, issued or not. A run
performs calls in order and keeps what each of them was answered.
-/

namespace ShaderScope

namespace Pool

/-- One call of a pool. A string is lent to the pool or given away for good. -/
inductive Call where
  | intern (s : String)
  | internOwned (s : String)
  | tryIntern (s : String)
  | tryInternOwned (s : String)
  | ident (s : String)
  | text (word : UInt32)
  | size

/-- What a call is answered. -/
inductive Reply where
  | interned (word : UInt32)
  /-- The string was refused, and the caller has to deal with it. -/
  | refused (o : Overflow)
  /-- The string was refused, and the caller is stopped. -/
  | stopped (o : Overflow)
  | ident (word : Option UInt32)
  /-- A word that was never issued stops the caller. -/
  | text (s : Option String)
  | size (n : Nat)

/-- The string that a call stores. -/
def Call.stored? : Call → Option String
  | intern s => some s
  | internOwned s => some s
  | tryIntern s => some s
  | tryInternOwned s => some s
  | _ => none

/-- Store a string and answer with its word, or with a refusal. -/
def answerIntern (pool : Pool) (refusal : Overflow → Reply) (s : String) : Reply × Pool :=
  match pool.tryIntern s with
  | .ok (i, grown) => (.interned i.raw, grown)
  | .error o => (refusal o, pool)

/-- Perform one call. Lent or given away, a string is stored in the same way. -/
def perform (pool : Pool) : Call → Reply × Pool
  | .intern s => pool.answerIntern .stopped s
  | .internOwned s => pool.answerIntern .stopped s
  | .tryIntern s => pool.answerIntern .refused s
  | .tryInternOwned s => pool.answerIntern .refused s
  | .ident s => (.ident ((pool.ident? s).map Ident.raw), pool)
  | .text word => (.text (pool.text? (.ofRaw word)), pool)
  | .size => (.size pool.size, pool)

/-- The pool after a run of calls. -/
def after (pool : Pool) : List Call → Pool
  | [] => pool
  | call :: rest => (pool.perform call).2.after rest

/-- The calls of a run, each with its answer. -/
def trace (pool : Pool) : List Call → List (Call × Reply)
  | [] => []
  | call :: rest => (call, (pool.perform call).1) :: (pool.perform call).2.trace rest

end Pool

end ShaderScope
