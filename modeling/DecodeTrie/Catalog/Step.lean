import DecodeTrie.Catalog.Builder

/-!
# Histories of catalogs

A catalog is what a history of steps has made of the empty one. Each step gives a number, or fails
and may leave tags behind; the steps after a failed one go on from there. `Catalog.after` is the
catalog at the end of a history, whichever of its steps have failed.
-/

namespace DecodeTrie

/-- A step in the history of a catalog. -/
inductive CatalogStep
  /-- Declares a core mode; the number is its bit. -/
  | declareMode (name : String)
  /-- Defines a mode set; the number is its mask. -/
  | defineModeSet (name : String) (members : List String)
  /-- Registers an instruction tag; the number is its bit. -/
  | registerInsnTag (name : String)
  /-- Registers an encoding tag; the number is its bit. -/
  | registerEncTag (name : String)
  /-- Adds an instruction; the number is its index. -/
  | add (decl : InstructionDecl)
deriving DecidableEq, Repr

namespace CatalogStep

/-- Takes a step. -/
def run : CatalogStep → CatalogM Nat
  | declareMode name => Catalog.declareMode name
  | defineModeSet name members => Catalog.defineModeSet name members
  | registerInsnTag name => Catalog.onInsnTags (TagRegistry.register name)
  | registerEncTag name => Catalog.onEncTags (TagRegistry.register name)
  | add decl => Catalog.add decl

/-- Takes a step, and gives the number or the error, and the catalog behind the step. -/
def outcome (s : CatalogStep) (c : Catalog) : Except CompileError Nat × Catalog :=
  match s.run c with
  | .ok n c => (.ok n, c)
  | .error e c => (.error e, c)

end CatalogStep

namespace Catalog

/-- The catalog that a history makes of the catalog `c`. -/
def afterFrom (c : Catalog) (history : List CatalogStep) : Catalog :=
  history.foldl (fun c s ↦ (s.outcome c).2) c

/-- The catalog that a history makes of the empty one. -/
def after (history : List CatalogStep) : Catalog := afterFrom {} history

@[simp] theorem after_nil : after [] = {} := rfl

/-- The steps of a longer history go on from the catalog of the shorter one. -/
theorem after_append (history later : List CatalogStep) :
    after (history ++ later) = (after history).afterFrom later := by
  rw [after, afterFrom, List.foldl_append, ← afterFrom, ← afterFrom, ← after]

/-- The last step of a history is taken in the catalog before it. -/
theorem after_concat (history : List CatalogStep) (s : CatalogStep) :
    after (history ++ [s]) = (s.outcome (after history)).2 :=
  after_append history [s]

end Catalog

end DecodeTrie
