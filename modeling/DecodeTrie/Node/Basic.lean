import DecodeTrie.Node.Kind

/-!
# Nodes

A node of the decode trie is a table: a kind, and as many slots as the kind has. A slot is empty,
or holds an encoding number, or refers to another node by its number.
-/

namespace DecodeTrie

/-- The number of a node, its position among the nodes of a trie. -/
abbrev NodeId := Nat

/-- What a slot of a node holds. -/
inductive Slot
  /-- Nothing. -/
  | empty
  /-- An encoding number. -/
  | leaf (number : Nat)
  /-- Another node. -/
  | node (id : NodeId)
deriving DecidableEq, Repr, Inhabited

/-- The node that a slot refers to. -/
def Slot.child? : Slot → Option NodeId
  | .node id => some id
  | _ => none

/-- A table of the trie. -/
structure Node where
  /-- What the table dispatches on. -/
  kind : NodeKind
  /-- The slots. -/
  slots : Vector Slot kind.slotCount

namespace Node

/-- The node of a kind whose slots are all empty. -/
def new (kind : NodeKind) : Node := ⟨kind, Vector.replicate kind.slotCount .empty⟩

/-- What a slot holds; there is nothing outside the table. -/
def slot (n : Node) (i : Nat) : Slot := (n.slots[i]?).getD .empty

/-- Puts something into a slot. -/
def set (n : Node) (i : Nat) (s : Slot) : Node := ⟨n.kind, n.slots.setIfInBounds i s⟩

/-- The nodes that the slots refer to, in the order of the slots. -/
def children (n : Node) : List NodeId := n.slots.toList.filterMap Slot.child?

@[simp] theorem kind_new (k : NodeKind) : (new k).kind = k := rfl

@[simp] theorem slot_new (k : NodeKind) (i : Nat) : (new k).slot i = .empty := by
  change ((Vector.replicate k.slotCount Slot.empty)[i]?).getD .empty = .empty
  rw [Vector.getElem?_replicate]
  split <;> rfl

@[simp] theorem kind_set (n : Node) (i : Nat) (s : Slot) : (n.set i s).kind = n.kind := rfl

theorem slot_set (n : Node) (i j : Nat) (s : Slot) :
    (n.set i s).slot j = if i = j ∧ i < n.kind.slotCount then s else n.slot j := by
  change ((n.slots.setIfInBounds i s)[j]?).getD .empty = _
  rw [Vector.getElem?_setIfInBounds]
  by_cases h : i = j
  · subst h
    by_cases hi : i < n.kind.slotCount <;> simp [hi, slot]
  · simp [h, slot]

theorem slot_eq_empty_of_le (n : Node) {i : Nat} (h : n.kind.slotCount ≤ i) :
    n.slot i = .empty := by
  simp [slot, Vector.getElem?_eq_none h]

end Node

end DecodeTrie
