import DecodeTrie.Tag.Mode

/-!
# Histories of mode registries

Modes and mode sets are declared in any order, each step seeing what the steps before it have left.
A step gives a number or fails, and the steps after a failed one go on from the registry that it
has left. `ModeRegistry.after` is the registry at the end of a history.
-/

namespace DecodeTrie

/-- A step in the history of a mode registry. -/
inductive ModeStep
  /-- Declares a core mode; the number is its bit. -/
  | declareMode (name : String)
  /-- Defines a mode set; the number is its mask. -/
  | defineSet (name : String) (members : List String)
deriving DecidableEq, Repr

namespace ModeStep

/-- Takes a step. -/
def run : ModeStep → EStateM CompileError ModeRegistry Nat
  | declareMode name => ModeRegistry.declareMode name
  | defineSet name members => ModeRegistry.defineSet name members

/-- Takes a step, and gives the number or the error, and the registry behind the step. -/
def outcome (s : ModeStep) (r : ModeRegistry) : Except CompileError Nat × ModeRegistry :=
  match s.run r with
  | .ok n r => (.ok n, r)
  | .error e r => (.error e, r)

end ModeStep

namespace ModeRegistry

/-- The registry that a history makes of the registry `r`. -/
def afterFrom (r : ModeRegistry) (history : List ModeStep) : ModeRegistry :=
  history.foldl (fun r s ↦ (s.outcome r).2) r

/-- The registry that a history makes of a fresh one. -/
def after (history : List ModeStep) : ModeRegistry := afterFrom {} history

/-- The steps of a longer history go on from the registry of the shorter one. -/
theorem after_append (history later : List ModeStep) :
    after (history ++ later) = (after history).afterFrom later := by
  rw [after, afterFrom, List.foldl_append, ← afterFrom, ← afterFrom, ← after]

end ModeRegistry

end DecodeTrie
