import ShaderScope.Memo.Store

/-!
# What stored definitions contain

The members of a definition refer to older places only, so one pass from the
oldest definition to the newest answers for all of them. Each definition is
looked at once, however many types refer to it.
-/

namespace ShaderScope.Memo

variable {ν : Type}

namespace Entry

/-- Some member passes the test, or refers to an older definition that contains
a type which does. The answers for the older definitions are given. -/
def contains (e : Entry ν) (test : Cell → Bool) (older : Array Bool) : Bool :=
  e.members.any fun m =>
    test m.cell ||
      match m.cell.base with
      | .plain _ => false
      | .stored place => older.getD place false

end Entry

namespace Store

/-- For every place, whether the definition there contains a type that passes
the test. -/
def containing (store : Store ν) (test : Cell → Bool) : Array Bool :=
  store.entries.foldl (fun older e => older.push (e.contains test older)) #[]

/-- The definition of a type contains one that passes the test. The type itself
is not tested. -/
def contains (store : Store ν) (test : Cell → Bool) (c : Cell) : Bool :=
  match c.base with
  | .plain _ => false
  | .stored place => (store.containing test).getD place false

/-- Some field at any depth is an array. -/
def containsArray (store : Store ν) (c : Cell) : Bool :=
  store.contains (fun d => d.arrayLength.isSome) c

/-- Some field at any depth is of the kind. -/
def containsKind (store : Store ν) (c : Cell) (kind : Kind) : Bool :=
  store.contains (fun d => store.kind d == kind) c

/-- Some field at any depth is a sampler. -/
def containsSampler (store : Store ν) (c : Cell) : Bool :=
  store.contains (fun d => (store.kind d).isSampler) c

theorem contains_withArrayLength (store : Store ν) (test : Cell → Bool) (c : Cell) (n : UInt32) :
    store.contains test (c.withArrayLength n) = store.contains test c :=
  rfl

theorem containing_empty (test : Cell → Bool) :
    (empty : Store ν).containing test = #[] :=
  rfl

/-- A definition that is stored later has its answer behind those of the others. -/
theorem containing_add (store : Store ν) (test : Cell → Bool) (name : ν) (form : Form ν)
    (members : List (Member ν)) :
    (store.add name form members).2.containing test =
      (store.containing test).push
        (Entry.contains { name, form, members } test (store.containing test)) := by
  simp [add, containing]

end Store

end ShaderScope.Memo
