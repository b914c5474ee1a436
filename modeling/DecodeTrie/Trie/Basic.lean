import DecodeTrie.Node.Basic

/-!
# The decode trie

The nodes of a trie stand in one sequence, and slots refer to them by position. Node 0 is the root,
an opcode table. New nodes are appended and never removed, so that a node keeps its number.

Different slots may refer to the same node; copying a subtree replaces such a shared node by one
of its own. The functions that follow references take a bound on the length of the paths they
follow, and the number of nodes is always enough where references do not run in circles.
-/

namespace DecodeTrie

/-- A sequence of nodes that refer to one another. -/
structure Trie where
  /-- The nodes, each at the position of its number. -/
  nodes : Array Node

/-- A slot of a node. -/
structure Position where
  /-- The node. -/
  node : NodeId
  /-- The slot of the node. -/
  slot : Nat
deriving DecidableEq, Repr

namespace Trie

/-- The trie that decodes nothing: the root and no other node. -/
def empty : Trie := ⟨#[Node.new .opcode]⟩

/-- The number of the root. -/
def root : NodeId := 0

/-- The number of nodes. -/
def size (t : Trie) : Nat := t.nodes.size

/-- The node with a number; outside the trie, a table without contents. -/
def node (t : Trie) (id : NodeId) : Node := (t.nodes[id]?).getD (Node.new .opcode)

/-- The kind of a node. -/
def kind (t : Trie) (id : NodeId) : NodeKind := (t.node id).kind

/-- What a slot holds. -/
def slot (t : Trie) (p : Position) : Slot := (t.node p.node).slot p.slot

/-- Puts something into a slot. -/
def set (t : Trie) (p : Position) (s : Slot) : Trie :=
  ⟨t.nodes.modify p.node fun n ↦ n.set p.slot s⟩

/-- Appends a node, whose number is the size of the trie before. -/
def push (t : Trie) (n : Node) : Trie := ⟨t.nodes.push n⟩

/-- The number of nodes of a kind. -/
def count (t : Trie) (kind : NodeKind) : Nat := t.nodes.toList.countP fun n ↦ n.kind == kind

/-! ## Reading and writing -/

@[simp] theorem size_empty : empty.size = 1 := rfl

@[simp] theorem size_set (t : Trie) (p : Position) (s : Slot) : (t.set p s).size = t.size := by
  simp [size, set]

@[simp] theorem size_push (t : Trie) (n : Node) : (t.push n).size = t.size + 1 := by
  simp [size, push]

theorem node_push (t : Trie) (n : Node) (id : NodeId) :
    (t.push n).node id = if id = t.size then n else t.node id := by
  simp only [node, push, size, Array.getElem?_push]
  by_cases h : id = t.nodes.size <;> simp [h]

theorem node_set (t : Trie) (p : Position) (s : Slot) (id : NodeId) :
    (t.set p s).node id =
      if p.node = id ∧ id < t.size then (t.node id).set p.slot s else t.node id := by
  simp only [node, set, size, Array.getElem?_modify]
  by_cases h : p.node = id
  · subst h
    by_cases hid : p.node < t.nodes.size <;> simp [hid]
  · simp [h]

@[simp] theorem kind_set (t : Trie) (p : Position) (s : Slot) (id : NodeId) :
    (t.set p s).kind id = t.kind id := by
  simp only [kind, node_set]
  split <;> simp

/-! ## Following references -/

/-- The first encoding number below a node, depth first in the order of the slots, along paths of
at most `bound` nodes. -/
def firstLeafWithin (t : Trie) : Nat → NodeId → Option Nat
  | 0, _ => none
  | bound + 1, id =>
    (t.node id).slots.toList.findSome? fun s ↦
      match s with
      | .empty => none
      | .leaf n => some n
      | .node child => t.firstLeafWithin bound child

/-- The first encoding number below a node, depth first in the order of the slots. -/
def firstLeaf (t : Trie) (id : NodeId) : Option Nat := t.firstLeafWithin t.size id

/-- Copies a node and what is below it, along paths of at most `bound` nodes, and gives the number
of the copy. The children are copied in the order of the slots, before the node itself. -/
def copyWithin : Nat → NodeId → Trie → Trie × NodeId
  | 0, id, t => (t, id)
  | bound + 1, id, t =>
    let copy := (List.range (t.kind id).slotCount).foldl
      (fun (acc : Trie × Node) i ↦
        match acc.2.slot i with
        | .node child =>
          let below := copyWithin bound child acc.1
          (below.1, acc.2.set i (.node below.2))
        | _ => acc)
      (t, t.node id)
    (copy.1.push copy.2, copy.1.size)

/-- Copies a node and everything below it, and gives the number of the copy. -/
def copySubtree (t : Trie) (id : NodeId) : Trie × NodeId := copyWithin t.size id t

end Trie

end DecodeTrie
