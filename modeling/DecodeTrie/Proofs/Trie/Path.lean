import DecodeTrie.Trie.Basic
import Mathlib.Data.List.Induction
import Mathlib.Tactic.ByContra

/-!
# Paths in a trie

A path is a list of slots, taken one after the other from the root. `slotAt` is what the slot at
the end of a path holds, and `view` is what of it does not depend on the numbers of nodes: an
encoding number, or the kind of a table.

Different paths may lead to one position, because slots may share a node. Writing into an empty
position therefore changes what stands at the end of every path that leads there, and of no other
path (`slotAt_of_write`); this is the one frame statement behind all insertions.
-/

namespace DecodeTrie

/-- What stands in a slot that is not empty, up to the number of a node. -/
inductive Content
  /-- An encoding number. -/
  | leaf (number : Nat)
  /-- A table. -/
  | table (kind : NodeKind)
deriving DecidableEq, Repr

namespace Trie

/-! ## Slots -/

theorem slot_of_size_le {t : Trie} {p : Position} (h : t.size ≤ p.node) : t.slot p = .empty := by
  rw [slot, node, Array.getElem?_eq_none (by exact h), Option.getD_none, Node.slot_new]

theorem slot_of_slotCount_le {t : Trie} {p : Position}
    (h : (t.kind p.node).slotCount ≤ p.slot) : t.slot p = .empty :=
  Node.slot_eq_empty_of_le _ h

/-- A slot that holds something is one of the slots of a node. -/
theorem lt_of_slot_ne_empty {t : Trie} {p : Position} (h : t.slot p ≠ .empty) :
    p.node < t.size ∧ p.slot < (t.kind p.node).slotCount := by
  constructor
  · by_contra hp
    exact h (slot_of_size_le (Nat.le_of_not_lt hp))
  · by_contra hp
    exact h (slot_of_slotCount_le (Nat.le_of_not_lt hp))

/-- A slot that refers to a node is one of the slots of a node. -/
theorem lt_of_slot_node {t : Trie} {p : Position} {j : NodeId} (h : t.slot p = .node j) :
    p.node < t.size ∧ p.slot < (t.kind p.node).slotCount :=
  lt_of_slot_ne_empty (by rw [h]; exact Slot.noConfusion)

theorem slot_push (t : Trie) (n : Node) (p : Position) :
    (t.push n).slot p = if p.node = t.size then n.slot p.slot else t.slot p := by
  simp only [slot, node_push]
  split <;> rfl

theorem kind_push (t : Trie) (n : Node) (id : NodeId) :
    (t.push n).kind id = if id = t.size then n.kind else t.kind id := by
  simp only [kind, node_push]
  split <;> rfl

/-- Appending an empty table changes no slot. -/
@[simp] theorem slot_push_new (t : Trie) (k : NodeKind) (p : Position) :
    (t.push (Node.new k)).slot p = t.slot p := by
  rw [slot_push]
  split
  · next h => rw [Node.slot_new, slot_of_size_le (Nat.le_of_eq h.symm)]
  · rfl

theorem slot_set {t : Trie} {p : Position} (hp : p.node < t.size)
    (hs : p.slot < (t.kind p.node).slotCount) (s : Slot) (q : Position) :
    (t.set p s).slot q = if q = p then s else t.slot q := by
  rcases p with ⟨x, i⟩
  rcases q with ⟨y, j⟩
  simp only [slot, node_set, Position.mk.injEq]
  by_cases hx : x = y
  · subst hx
    simp only [true_and, show x < t.size from hp, if_true, Node.slot_set]
    by_cases hi : i = j
    · subst hi
      rw [if_pos ⟨rfl, hs⟩, if_pos rfl]
    · rw [if_neg fun h ↦ hi h.1, if_neg fun h ↦ hi h.symm]
  · rw [if_neg fun h ↦ hx h.1, if_neg fun h ↦ hx h.1.symm]

/-! ## Following a path -/

/-- The slot `i` of the node that a slot refers to; nothing, if it refers to no node. -/
def enter (t : Trie) : Slot → Nat → Slot
  | .node id, i => t.slot ⟨id, i⟩
  | _, _ => .empty

@[simp] theorem enter_empty (t : Trie) (i : Nat) : t.enter .empty i = .empty := rfl

@[simp] theorem enter_leaf (t : Trie) (n i : Nat) : t.enter (.leaf n) i = .empty := rfl

@[simp] theorem enter_node (t : Trie) (id : NodeId) (i : Nat) :
    t.enter (.node id) i = t.slot ⟨id, i⟩ := rfl

/-- What stands at the end of a path that starts at what a slot refers to. -/
def slotFrom (t : Trie) (s : Slot) (path : List Nat) : Slot := path.foldl t.enter s

/-- What stands at the end of a path from the root. -/
def slotAt (t : Trie) (path : List Nat) : Slot := t.slotFrom (.node root) path

@[simp] theorem slotFrom_nil (t : Trie) (s : Slot) : t.slotFrom s [] = s := rfl

@[simp] theorem slotFrom_cons (t : Trie) (s : Slot) (i : Nat) (path : List Nat) :
    t.slotFrom s (i :: path) = t.slotFrom (t.enter s i) path := rfl

theorem slotFrom_append (t : Trie) (s : Slot) (p q : List Nat) :
    t.slotFrom s (p ++ q) = t.slotFrom (t.slotFrom s p) q :=
  List.foldl_append

@[simp] theorem slotFrom_empty (t : Trie) (path : List Nat) : t.slotFrom .empty path = .empty := by
  induction path with
  | nil => rfl
  | cons i path ih => rw [slotFrom_cons, enter_empty, ih]

theorem slotFrom_leaf (t : Trie) (n : Nat) (path : List Nat) :
    t.slotFrom (.leaf n) path = if path = [] then .leaf n else .empty := by
  cases path with
  | nil => rfl
  | cons i path => rw [slotFrom_cons, enter_leaf, slotFrom_empty, if_neg (List.cons_ne_nil _ _)]

@[simp] theorem slotAt_nil (t : Trie) : t.slotAt [] = .node root := rfl

theorem slotAt_append (t : Trie) (p q : List Nat) :
    t.slotAt (p ++ q) = t.slotFrom (t.slotAt p) q :=
  slotFrom_append ..

theorem slotAt_concat (t : Trie) (p : List Nat) (i : Nat) :
    t.slotAt (p ++ [i]) = t.enter (t.slotAt p) i :=
  slotAt_append ..

/-- Nothing stands behind an empty slot. -/
theorem slotAt_append_of_empty {t : Trie} {p : List Nat} (h : t.slotAt p = .empty) (q : List Nat) :
    t.slotAt (p ++ q) = .empty := by
  rw [slotAt_append, h, slotFrom_empty]

/-- A path to a node goes there still when no slot that holds something is written. -/
theorem slotAt_node_of_slots {t t' : Trie} (h : ∀ p, t.slot p ≠ .empty → t'.slot p = t.slot p)
    {path : List Nat} {x : NodeId} (hx : t.slotAt path = .node x) : t'.slotAt path = .node x := by
  induction path using List.reverseRecOn generalizing x with
  | nil => exact hx
  | append_singleton q i ih =>
    rw [slotAt_concat] at hx ⊢
    cases hq : t.slotAt q with
    | empty => rw [hq] at hx; cases hx
    | leaf n => rw [hq] at hx; cases hx
    | node y =>
      rw [hq, enter_node] at hx
      rw [ih hq, enter_node, h _ (by rw [hx]; exact Slot.noConfusion), hx]

/-! ## Views -/

/-- What a slot holds, up to the number of a node. -/
def content (t : Trie) : Slot → Option Content
  | .empty => none
  | .leaf n => some (.leaf n)
  | .node id => some (.table (t.kind id))

@[simp] theorem content_empty (t : Trie) : t.content .empty = none := rfl

@[simp] theorem content_leaf (t : Trie) (n : Nat) : t.content (.leaf n) = some (.leaf n) := rfl

@[simp] theorem content_node (t : Trie) (id : NodeId) :
    t.content (.node id) = some (.table (t.kind id)) := rfl

theorem content_eq_none_iff {t : Trie} {s : Slot} : t.content s = none ↔ s = .empty := by
  cases s <;> simp

theorem content_eq_leaf_iff {t : Trie} {s : Slot} {n : Nat} :
    t.content s = some (.leaf n) ↔ s = .leaf n := by
  cases s <;> simp

theorem content_eq_table_iff {t : Trie} {s : Slot} {k : NodeKind} :
    t.content s = some (.table k) ↔ ∃ id, s = .node id ∧ t.kind id = k := by
  cases s <;> simp

/-- What stands at the end of a path that starts at what a slot refers to, up to the number of a
node. -/
def viewFrom (t : Trie) (s : Slot) (path : List Nat) : Option Content :=
  t.content (t.slotFrom s path)

/-- What stands at the end of a path from the root, up to the number of a node. -/
def view (t : Trie) (path : List Nat) : Option Content := t.content (t.slotAt path)

theorem view_append (t : Trie) (p q : List Nat) :
    t.view (p ++ q) = t.viewFrom (t.slotAt p) q := by
  rw [view, viewFrom, slotAt_append]

theorem view_append_of_none {t : Trie} {p : List Nat} (h : t.view p = none) (q : List Nat) :
    t.view (p ++ q) = none := by
  rw [view, content_eq_none_iff] at h ⊢
  exact slotAt_append_of_empty h q

/-! ## Paths that lead to a position -/

/-- A path leads to a position when the tables on it end with the node and the last slot is that
of the position. -/
def Leads (t : Trie) (p : Position) (path : List Nat) : Prop :=
  ∃ q, path = q ++ [p.slot] ∧ t.slotAt q = .node p.node

theorem slotAt_of_leads {t : Trie} {p : Position} {path : List Nat} (h : t.Leads p path) :
    t.slotAt path = t.slot p := by
  obtain ⟨q, rfl, hq⟩ := h
  rw [slotAt_concat, hq, enter_node]

@[simp] theorem leads_concat {t : Trie} {p : Position} {q : List Nat} {i : Nat} :
    t.Leads p (q ++ [i]) ↔ i = p.slot ∧ t.slotAt q = .node p.node := by
  constructor
  · rintro ⟨q', h, hq⟩
    obtain ⟨rfl, hi⟩ := List.append_inj' h rfl
    exact ⟨List.singleton_inj.mp hi, hq⟩
  · rintro ⟨rfl, hq⟩
    exact ⟨q, rfl, hq⟩

theorem not_leads_nil {t : Trie} {p : Position} : ¬ t.Leads p [] := by
  rintro ⟨q, h, _⟩
  exact absurd h.symm (by simp)

/-- **The frame of a write.** When something without contents of its own is written into an empty
position, it stands at the end of the paths that lead there, and all other paths end where they
did. -/
theorem slotAt_of_write {t t' : Trie} {p : Position} {s : Slot}
    (hslot : ∀ q, t'.slot q = if q = p then s else t.slot q) (hp : t.slot p = .empty)
    (hs : ∀ i, t'.enter s i = .empty) (path : List Nat) :
    (t.Leads p path → t'.slotAt path = s) ∧
      (¬ t.Leads p path → t'.slotAt path = t.slotAt path) := by
  induction path using List.reverseRecOn with
  | nil => exact ⟨fun h ↦ absurd h not_leads_nil, fun _ ↦ rfl⟩
  | append_singleton q i ih =>
    rw [leads_concat, slotAt_concat, slotAt_concat]
    by_cases hq : t.Leads p q
    · -- The path goes on behind the position: there is nothing, before and after.
      have hempty : t.slotAt q = .empty := by rw [slotAt_of_leads hq, hp]
      rw [ih.1 hq, hs, hempty]
      exact ⟨fun h ↦ (Slot.noConfusion h.2), fun _ ↦ rfl⟩
    · rw [ih.2 hq]
      cases hs' : t.slotAt q with
      | empty => exact ⟨fun h ↦ Slot.noConfusion h.2, fun _ ↦ rfl⟩
      | leaf n => exact ⟨fun h ↦ Slot.noConfusion h.2, fun _ ↦ rfl⟩
      | node x =>
        rw [enter_node, enter_node, hslot]
        constructor
        · rintro ⟨rfl, h⟩
          cases h
          rw [if_pos rfl]
        · intro h
          rw [if_neg]
          rintro rfl
          exact h ⟨rfl, rfl⟩

end Trie

end DecodeTrie
