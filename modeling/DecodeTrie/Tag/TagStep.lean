import DecodeTrie.Tag.Registry

/-!
# Histories of tag registries

Tags are registered one at a time or several in one go, in any order, each step seeing what the
steps before it have left. A step gives a number or fails, and a step that fails in the middle of
its names may have registered some of them; the steps after it go on from there.
`TagRegistry.after` is the registry at the end of a history.
-/

namespace DecodeTrie

/-- A step in the history of a tag registry. -/
inductive TagStep
  /-- Registers a name; the number is its bit. -/
  | register (name : String)
  /-- Registers names; the number is the mask of their set. -/
  | registerAll (names : List String)
deriving DecidableEq, Repr

namespace TagStep

/-- The names that a step asks for. -/
def names : TagStep → List String
  | register name => [name]
  | registerAll names => names

/-- Takes a step. -/
def run : TagStep → EStateM CompileError TagRegistry Nat
  | register name => TagRegistry.register name
  | registerAll names => TagSet.bits <$> TagRegistry.registerAll names

/-- Takes a step, and gives the number or the error, and the registry behind the step. -/
def outcome (s : TagStep) (r : TagRegistry) : Except CompileError Nat × TagRegistry :=
  match s.run r with
  | .ok n r => (.ok n, r)
  | .error e r => (.error e, r)

end TagStep

namespace TagRegistry

/-- The registry that a history makes of the registry `r`. -/
def afterFrom (r : TagRegistry) (history : List TagStep) : TagRegistry :=
  history.foldl (fun r s ↦ (s.outcome r).2) r

/-- The registry that a history makes of a fresh one of the given class. -/
def after (cls : TagClass) (history : List TagStep) : TagRegistry :=
  afterFrom { cls := cls } history

/-- The steps of a longer history go on from the registry of the shorter one. -/
theorem after_append (cls : TagClass) (history later : List TagStep) :
    after cls (history ++ later) = (after cls history).afterFrom later := by
  rw [after, afterFrom, List.foldl_append, ← afterFrom, ← afterFrom, ← after]

end TagRegistry

end DecodeTrie
