import DecodeTrie.Error
import DecodeTrie.Trie.Basic
import DecodeTrie.Trie.Site

/-!
# Placing leaves

Putting an encoding number at the end of a path creates the tables that are missing on the way. It
fails where the path needs something else than what an earlier encoding has made: then the trie is
as it was before the path was tried, because a path that has created one table finds only empty
slots behind it.

In a ModRM table the four modes of a register column may share a child. An encoding for every mode
keeps what is shared shared: modes that hold the same thing before hold the same thing after. An
encoding for one mode first gives that mode a child of its own.
-/

namespace DecodeTrie

/-- Why a path cannot be completed. -/
inductive Clash
  /-- The last slot holds the number of another encoding. -/
  | occupied (other : Nat)
  /-- A slot holds something of another shape, made for encoding `other`. -/
  | shape (wanted found : Shape) (other : Nat)
deriving DecidableEq, Repr

namespace Trie

/-! ## Paths -/

/-- The node of a kind at a position, which is created if the slot is empty. -/
def ensureTable (number : Nat) (kind : NodeKind) (p : Position) : EStateM Clash Trie NodeId :=
  fun t ↦
    match t.slot p with
    | .empty =>
      let id := t.size
      .ok id ((t.push (Node.new kind)).set p (.node id))
    | .leaf other => .error (.shape (.table kind) .leaf other) t
    | .node id =>
      let found := t.kind id
      if found = kind then .ok id t
      else
        let other := (t.firstLeaf id).getD number
        .error (.shape (.table kind) (.table found) other) t

/-- The position at the end of a path whose tables hang below the position `p`. -/
def follow (number : Nat) (p : Position) : List Step → EStateM Clash Trie Position
  | [] => pure p
  | s :: steps => do
    let id ← ensureTable number s.kind p
    follow number ⟨id, s.slot⟩ steps

/-- The position at the end of a path whose first table is the root. -/
def reach (number : Nat) : List Step → EStateM Clash Trie Position
  | [] => pure ⟨root, 0⟩
  | s :: steps => follow number ⟨root, s.slot⟩ steps

/-- Puts an encoding number into an empty slot. -/
def putLeaf (number : Nat) (p : Position) : EStateM Clash Trie Unit := fun t ↦
  match t.slot p with
  | .empty => .ok () (t.set p (.leaf number))
  | .leaf other => .error (.occupied other) t
  | .node id =>
    let found := t.kind id
    let other := (t.firstLeaf id).getD number
    .error (.shape .leaf (.table found) other) t

/-- Puts an encoding number at the end of a path whose tables hang below the position `p`. -/
def place (number : Nat) (p : Position) (steps : List Step) : EStateM Clash Trie Unit := do
  let q ← follow number p steps
  putLeaf number q

/-! ## Register columns -/

/-- The position of a mode in a register column. -/
def cell (table : NodeId) (reg : Fin 8) (mode : Nat) : Position := ⟨table, ModRM.slot reg mode⟩

/-- Whether another mode of the column refers to the same node. -/
def isShared (t : Trie) (table : NodeId) (reg : Fin 8) (mode : Nat) (id : NodeId) : Bool :=
  (List.range 4).any fun m ↦ m != mode && t.slot (cell table reg m) == .node id

/-- Gives a mode a child of its own if it shares one with other modes of its column. -/
def detach (table : NodeId) (reg : Fin 8) (mode : Nat) (t : Trie) : Trie :=
  match t.slot (cell table reg mode) with
  | .node id =>
    if t.isShared table reg mode id then
      let copy := t.copySubtree id
      copy.1.set (cell table reg mode) (.node copy.2)
    else t
  | _ => t

/-- The first of the modes before `mode` that holds the same thing in its column. -/
def earlierTwin? (column : List Slot) (mode : Nat) : Option Nat :=
  (List.range mode).find? fun m ↦ column[m]? == column[mode]?

/-- What the four modes of a register column hold. -/
def columnSlots (t : Trie) (table : NodeId) (reg : Fin 8) : List Slot :=
  (List.range 4).map fun m ↦ t.slot (cell table reg m)

end Trie

end DecodeTrie
