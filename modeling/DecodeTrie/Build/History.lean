import DecodeTrie.Build

/-!
# Histories of builds

A build is what a history of insertions has made of the empty trie. An insertion can fail when it
has placed some leaves already, and the ones after it go on from there. `Build.after` is the build
at the end of a history, whichever of its insertions have failed. `Build.insertList` takes a history
as one step, which fails with its first failing insertion; when it succeeds, the two agree
(`afterFrom_of_insertList`).
-/

namespace DecodeTrie

/-- The insertion of an encoding under a descriptor. -/
structure Insertion where
  /-- The number of the encoding. -/
  number : Nat
  /-- The descriptor. -/
  descriptor : Descriptor
deriving DecidableEq, Repr

namespace Insertion

/-- Inserts, and gives the error, if there is one, and the build behind the insertion. -/
def outcome (c : Catalog) (steering : Steering) (i : Insertion) (b : Build) :
    Except CompileError Unit × Build :=
  match Build.insert c steering i.number i.descriptor b with
  | .ok _ b => (.ok (), b)
  | .error e b => (.error e, b)

end Insertion

namespace Build

/-- The build that a history makes of the build `b`. -/
def afterFrom (c : Catalog) (steering : Steering) (b : Build) (history : List Insertion) : Build :=
  history.foldl (fun b i ↦ (i.outcome c steering b).2) b

/-- The build that a history makes of the empty trie. -/
def after (c : Catalog) (steering : Steering) (history : List Insertion) : Build :=
  afterFrom c steering (empty c) history

@[simp] theorem after_nil (c : Catalog) (steering : Steering) : after c steering [] = empty c := rfl

/-- The last insertion of a history is made in the build before it. -/
theorem after_concat (c : Catalog) (steering : Steering) (history : List Insertion)
    (i : Insertion) :
    after c steering (history ++ [i]) = (i.outcome c steering (after c steering history)).2 := by
  rw [after, afterFrom, List.foldl_append, List.foldl_cons, List.foldl_nil, ← afterFrom, ← after]

/-- Makes insertions up to the first one that fails. -/
def insertList (c : Catalog) (steering : Steering) :
    List Insertion → EStateM CompileError Build Unit
  | [] => pure ()
  | i :: history => fun b ↦
    match insert c steering i.number i.descriptor b with
    | .ok _ b => insertList c steering history b
    | .error e b => .error e b

/-- When every insertion of a history succeeds, both readings of the history agree. -/
theorem afterFrom_of_insertList {c : Catalog} {steering : Steering} {history : List Insertion}
    {b b' : Build} (h : insertList c steering history b = .ok () b') :
    afterFrom c steering b history = b' := by
  induction history generalizing b with
  | nil => cases h; rfl
  | cons i history ih =>
    simp only [insertList] at h
    rw [afterFrom, List.foldl_cons, ← afterFrom]
    split at h
    · next hi => rw [Insertion.outcome, hi]; exact ih h
    · cases h

end Build

end DecodeTrie
