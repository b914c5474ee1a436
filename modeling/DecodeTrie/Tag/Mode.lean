import DecodeTrie.Tag.Registry

/-!
# CPU modes

Core modes are tags with a bit each; a mode set is a named union of modes and of sets defined
before it. Both share one name space. A set keeps the names it was defined from beside its mask,
which never changes once the set is there.
-/

namespace DecodeTrie

/-- A named union of modes. -/
structure ModeSet where
  /-- The name of the set. -/
  name : String
  /-- The modes and sets that it was defined from. -/
  members : List String
  /-- The bits of its core modes. -/
  mask : Nat
deriving DecidableEq, Repr

/-- The declared modes and mode sets. -/
structure ModeRegistry where
  /-- The core modes. -/
  core : TagRegistry := { cls := .mode }
  /-- The sets, in order of definition. -/
  sets : List ModeSet := []
deriving DecidableEq, Repr

namespace ModeRegistry

/-- The mask of a mode set. -/
def setMask? (r : ModeRegistry) (name : String) : Option Nat :=
  (r.sets.find? fun s ↦ s.name == name).map ModeSet.mask

/-- The mask of a core mode or mode set. -/
def mask? (r : ModeRegistry) (name : String) : Option Nat :=
  match r.core.get? name with
  | some bit => some (bitMask bit)
  | none => r.setMask? name

/-- Adds the masks of names to a mask; the error is the first unknown name. -/
def unionInto (r : ModeRegistry) (mask : Nat) : List String → Except String Nat
  | [] => .ok mask
  | name :: names =>
    match r.mask? name with
    | some m => r.unionInto (mask ||| m) names
    | none => .error name

/-- The union of the masks of names; the error is the first unknown name. -/
def union (r : ModeRegistry) (names : List String) : Except String Nat := r.unionInto 0 names

/-- What has a mask is a core mode or a mode set. -/
theorem isSome_mask? (r : ModeRegistry) (name : String) :
    (r.mask? name).isSome = ((r.core.get? name).isSome || (r.setMask? name).isSome) := by
  rw [mask?]
  cases r.core.get? name <;> rfl

/-- Declares a core mode under a new name and gives its bit. -/
def declareMode (name : String) : EStateM CompileError ModeRegistry Nat := fun r ↦
  if (r.core.get? name).isSome || (r.setMask? name).isSome then .error (.duplicateMode name) r
  else
    match TagRegistry.register name r.core with
    | .ok bit core => .ok bit { r with core := core }
    | .error e core => .error e { r with core := core }

/-- Defines a mode set under a new name and gives its mask. -/
def defineSet (name : String) (members : List String) : EStateM CompileError ModeRegistry Nat :=
  fun r ↦
    if (r.mask? name).isSome then .error (.duplicateMode name) r
    else
      match r.union members with
      | .error unknown => .error (.unknownMode unknown name) r
      | .ok mask =>
        if mask = 0 then .error (.emptyModeSet name) r
        else .ok mask { r with sets := r.sets ++ [⟨name, members, mask⟩] }

end ModeRegistry

end DecodeTrie
