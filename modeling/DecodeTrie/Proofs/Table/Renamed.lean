import DecodeTrie.Proofs.Table.Lookups
import DecodeTrie.Proofs.Trie.Renamings

/-!
# Tables of renamed tries

Tries that are the same up to the numbers of nodes have the same flat tables, word for word
(`Renaming.flatten_eq`). Nodes are laid out in the order in which the slots refer to them, so that
two traversals go in step (`Renaming.rel_layoutWithin`): they lay out related nodes, at the same
places. The bounds of the two traversals need not be the same, for the tries may have different
numbers of nodes.
-/

namespace DecodeTrie

open Relator

/-! ## Nodes with related slots -/

namespace Node

theorem getElem_toList_slots (n : Node) {i : Nat} (hi : i < n.slots.toList.length) :
    n.slots.toList[i] = n.slot i := by
  have hlt : i < n.kind.slotCount := by rwa [Vector.length_toList] at hi
  simp [slot, hlt]

variable {R : NodeId → NodeId → Prop} {n n' : Node}

theorem forall₂_slots (hk : n.kind = n'.kind) (hs : ∀ i, (n.slot i).Rel R (n'.slot i)) :
    List.Forall₂ (Slot.Rel R) n.slots.toList n'.slots.toList := by
  rw [List.forall₂_iff_get]
  refine ⟨by rw [Vector.length_toList, Vector.length_toList, hk], fun i hi hi' ↦ ?_⟩
  rw [List.get_eq_getElem, List.get_eq_getElem, getElem_toList_slots, getElem_toList_slots]
  exact hs i

/-- Nodes with related slots have related children, in the same order. -/
theorem forall₂_children (hk : n.kind = n'.kind) (hs : ∀ i, (n.slot i).Rel R (n'.slot i)) :
    List.Forall₂ R n.children n'.children := by
  refine List.rel_filterMap (fun s u h ↦ ?_) (forall₂_slots hk hs)
  cases h with
  | empty => exact .none
  | leaf n => exact .none
  | node h => exact .some h

end Node

/-! ## Layouts of related nodes -/

/-- Layouts of related nodes at the same places. -/
structure Layout.Rel (t t' : Trie) (R : NodeId → NodeId → Prop) (l l' : Layout) : Prop where
  /-- The runs are those of related nodes. -/
  order : List.Forall₂ R l.order.toList l'.order.toList
  /-- There are as many words. -/
  size_eq : l.size = l'.size
  /-- Related nodes have the same start. -/
  start_eq : ∀ {x y : NodeId}, R x y → l.start? x = l'.start? y
  /-- There is a place for the start of every node. -/
  starts_size : l.starts.size = t.size ∧ l'.starts.size = t'.size

theorem Layout.rel_empty (t t' : Trie) (R : NodeId → NodeId → Prop) :
    Layout.Rel t t' R (Layout.empty t.size) (Layout.empty t'.size) where
  order := .nil
  size_eq := rfl
  start_eq _ := by rw [Layout.start?_empty, Layout.start?_empty]
  starts_size := by simp [Layout.empty]

namespace Trie

namespace Renaming

variable {t t' : Trie} {R : NodeId → NodeId → Prop} (h : t.Renaming t' R)

include h

/-- Appending the runs of related nodes. -/
theorem rel_append {x y : NodeId} (hxy : R x y) {l l' : Layout} (hl : Layout.Rel t t' R l l') :
    Layout.Rel t t' R (l.append x (t.kind x).slotCount) (l'.append y (t'.kind y).slotCount) := by
  obtain ⟨hx, hy⟩ := h.lt_size hxy
  obtain ⟨hs, hs'⟩ := hl.starts_size
  refine ⟨?_, ?_, fun {z z'} hz ↦ ?_, ?_⟩
  · rw [Layout.append, Layout.append, Array.toList_push, Array.toList_push]
    exact List.rel_append hl.order (.cons hxy .nil)
  · rw [Layout.append, Layout.append, hl.size_eq, h.kind_eq hxy]
  · rw [Layout.start?_append (by rwa [hs]), Layout.start?_append (by rwa [hs']), hl.size_eq,
      hl.start_eq hz, if_congr (rel_eq h.biUnique hz hxy) rfl rfl]
  · rw [Layout.append, Layout.append, Array.size_setIfInBounds, Array.size_setIfInBounds]
    exact hl.starts_size

/-- **Two traversals in step** lay out related nodes at the same places. -/
theorem rel_layoutWithin {bound bound' : Nat} {x y : NodeId} (hxy : R x y)
    (hb : t.Within bound x) (hb' : t'.Within bound' y) {l l' : Layout}
    (hl : Layout.Rel t t' R l l') :
    Layout.Rel t t' R (t.layoutWithin bound l x) (t'.layoutWithin bound' l' y) := by
  induction bound generalizing bound' x y l l' with
  | zero => exact hb.elim
  | succ bound ih =>
    cases bound' with
    | zero => exact hb'.elim
    | succ bound' =>
      rw [layoutWithin, layoutWithin, hl.start_eq hxy]
      split
      · exact hl
      · -- The children are related in order, and within the bounds.
        have hchildren : List.Forall₂ (fun z z' ↦ R z z' ∧ t.Within bound z ∧ t'.Within bound' z')
            (t.node x).children (t'.node y).children :=
          Node.forall₂_children (h.kind_eq hxy) fun i ↦
            (h.slot hxy i).imp fun z z' hz hz' hR ↦ ⟨hR, hb i z hz, hb' i z' hz'⟩
        refine h.rel_append hxy (List.rel_foldl ?_ hl hchildren)
        exact fun l l' hl z z' hz ↦ ih hz.1 hz.2.1 hz.2.2 hl

/-! ## Words -/

theorem entryOf_eq {l l' : Layout} (hl : Layout.Rel t t' R l l') {s u : Slot} (hs : s.Rel R u) :
    t.entryOf l s = t'.entryOf l' u := by
  cases hs with
  | empty => rfl
  | leaf n => rfl
  | node hxy => rw [entryOf, entryOf, h.kind_eq hxy, hl.start_eq hxy]

theorem body_eq {l l' : Layout} (hl : Layout.Rel t t' R l l') : t.body l = t'.body l' := by
  have hrun {x y : NodeId} (hxy : R x y) : List.Forall₂ Eq (t.run l x) (t'.run l' y) := by
    refine List.rel_map (fun s u hs ↦ ?_) (Node.forall₂_slots (h.kind_eq hxy) (h.slot hxy))
    rw [h.entryOf_eq hl hs]
  rw [body, body, ← List.forall₂_eq_eq_eq]
  exact List.rel_flatMap hl.order fun _ _ ↦ hrun

theorem toFlat_eq (hb : t.Within t.size Trie.root) (hb' : t'.Within t'.size Trie.root) :
    t.toFlat = t'.toFlat := by
  have hl : Layout.Rel t t' R t.layout t'.layout :=
    h.rel_layoutWithin h.root hb hb' (Layout.rel_empty t t' R)
  rw [toFlat, toFlat, hl.size_eq, h.body_eq hl, h.kind_eq h.root, hl.start_eq h.root]

/-! ## Collapsing -/

theorem ignoresMode_eq {x y : NodeId} (hxy : R x y) :
    (t.node x).ignoresMode = (t'.node y).ignoresMode := by
  rw [Bool.eq_iff_iff, Node.ignoresMode_iff, Node.ignoresMode_iff]
  refine and_congr (by rw [show (t.node x).kind = (t'.node y).kind from h.kind_eq hxy]) ?_
  exact forall₂_congr fun r m ↦ Slot.Rel.eq_iff h.biUnique (h.slot hxy _) (h.slot hxy _)

/-- Collapsing goes in step as well. -/
theorem collapse : t.collapse.Renaming t'.collapse R where
  root := h.root
  lt_size hxy := by
    rw [size_collapse, size_collapse]
    exact h.lt_size hxy
  kind_eq {x y} hxy := by
    rw [kind, kind, node_collapse, node_collapse, Node.collapse, Node.collapse,
      h.ignoresMode_eq hxy]
    split
    · rfl
    · exact h.kind_eq hxy
  slot {x y} hxy i := by
    rw [Trie.slot, Trie.slot, node_collapse, node_collapse, Node.collapse, Node.collapse,
      h.ignoresMode_eq hxy]
    split
    · rw [Node.slot_toRegOnly, Node.slot_toRegOnly]
      split
      · exact h.slot hxy i
      · exact .empty
    · exact h.slot hxy i
  biUnique := h.biUnique

/-- **Renamed tries have the same flat tables**, collapsed or not. -/
theorem flatten_eq (hb : t.Within t.size Trie.root) (hb' : t'.Within t'.size Trie.root)
    (collapse : Bool) : t.flatten collapse = t'.flatten collapse := by
  rw [flatten, flatten]
  split
  · refine h.collapse.toFlat_eq ?_ ?_
    · rw [size_collapse]
      exact hb.collapse
    · rw [size_collapse]
      exact hb'.collapse
  · exact h.toFlat_eq hb hb'

end Renaming

end Trie

end DecodeTrie
