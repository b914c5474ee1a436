import DecodeTrie.Proofs.Trie.Sharing
import Mathlib.Data.List.Forall2

/-!
# Tries up to the numbers of nodes

Insertions in another order number the nodes of a trie otherwise. A renaming relates the nodes of
two tries that are the same up to that (`Renaming`): related nodes have the same kind and related
slots, and the relation is one to one, so that the same slots share a child.

Two tries in which the same things stand and the same cells are pinned are related by a renaming
(`renaming_of_sharing`): nodes at the end of one path belong together. It is one to one because
paths that end at one node differ at most in the mode at a register column, and the pins decide
which modes share.
-/

namespace DecodeTrie

/-- Slots that hold the same thing, up to a relation of nodes. -/
inductive Slot.Rel (R : NodeId → NodeId → Prop) : Slot → Slot → Prop
  /-- Nothing. -/
  | empty : Rel R .empty .empty
  /-- The same number. -/
  | leaf (n : Nat) : Rel R (.leaf n) (.leaf n)
  /-- Related nodes. -/
  | node {x y : NodeId} (h : R x y) : Rel R (.node x) (.node y)

namespace Slot.Rel

variable {R : NodeId → NodeId → Prop} {s s' u u' : Slot}

theorem imp {Q : NodeId → NodeId → Prop} (h : s.Rel R u)
    (hQ : ∀ x y, s = .node x → u = .node y → R x y → Q x y) : s.Rel Q u := by
  cases h with
  | empty => exact .empty
  | leaf n => exact .leaf n
  | node hxy => exact .node (hQ _ _ rfl rfl hxy)

/-- Slots hold the same node exactly if the related slots do. -/
theorem eq_iff (hR : Relator.BiUnique R) (h : s.Rel R u) (h' : s'.Rel R u') :
    s = s' ↔ u = u' := by
  cases h with
  | empty => cases h' <;> simp
  | leaf n => cases h' <;> simp
  | node hxy =>
    cases h' with
    | empty => simp
    | leaf n => simp
    | node hxy' =>
      rw [Slot.node.injEq, Slot.node.injEq]
      exact Relator.rel_eq hR hxy hxy'

end Slot.Rel

namespace Trie

/-- **A renaming** relates the nodes of two tries that are the same up to the numbers of nodes. -/
structure Renaming (t t' : Trie) (R : NodeId → NodeId → Prop) : Prop where
  /-- The roots are related. -/
  root : R root root
  /-- Related nodes are nodes of the tries. -/
  lt_size : ∀ {x y : NodeId}, R x y → x < t.size ∧ y < t'.size
  /-- Related nodes have the same kind. -/
  kind_eq : ∀ {x y : NodeId}, R x y → t.kind x = t'.kind y
  /-- Related nodes have related slots. -/
  slot : ∀ {x y : NodeId}, R x y → ∀ i, (t.slot ⟨x, i⟩).Rel R (t'.slot ⟨y, i⟩)
  /-- The relation is one to one. -/
  biUnique : Relator.BiUnique R

/-! ## Renamings by paths -/

/-- Nodes at the end of one path. -/
def SamePath (t t' : Trie) (x y : NodeId) : Prop :=
  ∃ path, t.slotAt path = .node x ∧ t'.slotAt path = .node y

section sharing

variable {t t' : Trie} {P : Pins}

/-- A slot of a ModRM table is the cell of its register and its mode. -/
theorem slotAt_concat_eq_cellAt (t : Trie) (c : List Nat) {i : Nat} {reg : Fin 8}
    (h : i % 8 = reg) : t.slotAt (c ++ [i]) = t.cellAt c reg (i / 8) := by
  rw [cellAt, ModRM.slot, ← h, Nat.mod_add_div]

/-- Cells of a column that hold one node are not pinned, and so they hold one thing in every trie
with the same pins. -/
theorem Sharing.cellAt_eq (h : t.Sharing P) (h' : t'.Sharing P) (hv : t.view = t'.view)
    {c : List Nat} {reg : Fin 8} {j k : Nat} {y : NodeId} (hj : j < 4) (hk : k < 4)
    (hc : t.view c = some (.table .modrm)) (hy : t.cellAt c reg j = .node y)
    (hy' : t.cellAt c reg k = .node y) : t'.cellAt c reg j = t'.cellAt c reg k := by
  by_cases hjk : j = k
  · rw [hjk]
  · have hpj : ¬ P c reg j := fun hp ↦ (h.column reg hc).own hj hk hp hjk hy hy'
    have hpk : ¬ P c reg k := fun hp ↦ (h.column reg hc).own hk hj hp (Ne.symm hjk) hy' hy
    rw [hv] at hc
    exact (h'.column reg hc).alike hj hk hpj hpk

/-- **Paths to one node** end at one node in every trie with the same view and the same pins. -/
theorem Sharing.slotAt_eq (hl : t.WellLinked) (h : t.Sharing P) (h' : t'.Sharing P)
    (hv : t.view = t'.view) {p q : List Nat} {x : NodeId} (hp : t.slotAt p = .node x)
    (hq : t.slotAt q = .node x) : t'.slotAt p = t'.slotAt q := by
  rcases hl.eq_or_twins hp hq with rfl | ⟨c, z, i, j, r, hc, hz, hij, hs, rfl, rfl⟩
  · rfl
  · -- The column of the cells at which the paths differ.
    have hmodrm : t.view c = some (.table .modrm) := by rw [view, hc, content_node, hz]
    rw [slotAt_append, hc, slotFrom_cons, enter_node] at hp
    cases hy : t.slot ⟨z, i⟩ with
    | empty => rw [hy, slotFrom_empty] at hp; cases hp
    | leaf n => rw [hy, slotFrom_leaf] at hp; split at hp <;> cases hp
    | node y =>
      obtain ⟨reg, hi⟩ : ∃ reg : Fin 8, i % 8 = reg := ⟨⟨i % 8, Nat.mod_lt i (by decide)⟩, rfl⟩
      have hj : j % 8 = reg := hij.symm.trans hi
      have hlt {k : Nat} (hk : t.slot ⟨z, k⟩ = .node y) : k / 8 < 4 := by
        have hne : t.slot ⟨z, k⟩ ≠ .empty := by rw [hk]; exact Slot.noConfusion
        have hkz := (lt_of_slot_ne_empty hne).2
        rw [show t.kind (Position.mk z k).node = .modrm from hz] at hkz
        exact Nat.div_lt_of_lt_mul hkz
      have hcell {k : Nat} (hk : k % 8 = reg) : t.cellAt c reg (k / 8) = t.slot ⟨z, k⟩ := by
        rw [← slotAt_concat_eq_cellAt t c hk, slotAt_concat, hc, enter_node]
      have hcells := h.cellAt_eq h' hv (hlt hy) (hlt (hs ▸ hy)) hmodrm ((hcell hi).trans hy)
        ((hcell hj).trans (hs ▸ hy))
      rw [← slotAt_concat_eq_cellAt t' c hi, ← slotAt_concat_eq_cellAt t' c hj] at hcells
      rw [List.append_cons c i r, List.append_cons c j r, slotAt_append, hcells, ← slotAt_append]

/-- **Tries with the same view and the same pins** are the same up to the numbers of nodes. -/
theorem renaming_of_sharing (hl : t.WellLinked) (hl' : t'.WellLinked) (h : t.Sharing P)
    (h' : t'.Sharing P) (hv : t.view = t'.view) : t.Renaming t' (t.SamePath t') where
  root := ⟨[], slotAt_nil t, slotAt_nil t'⟩
  lt_size := by
    rintro x y ⟨path, hx, hy⟩
    exact ⟨hl.lt_size_of_slotAt hx, hl'.lt_size_of_slotAt hy⟩
  kind_eq := by
    rintro x y ⟨path, hx, hy⟩
    have hpath := congrFun hv path
    rw [view, view, hx, hy, content_node, content_node] at hpath
    exact Content.table.inj (Option.some.inj hpath)
  slot := by
    rintro x y ⟨path, hx, hy⟩ i
    have hpath := congrFun hv (path ++ [i])
    have hxi : t.slotAt (path ++ [i]) = t.slot ⟨x, i⟩ := by rw [slotAt_concat, hx, enter_node]
    have hyi : t'.slotAt (path ++ [i]) = t'.slot ⟨y, i⟩ := by rw [slotAt_concat, hy, enter_node]
    rw [view, view, hxi, hyi] at hpath
    cases hs : t.slot ⟨x, i⟩ with
    | empty =>
      rw [hs, content_empty, eq_comm, content_eq_none_iff] at hpath
      rw [hpath]
      exact .empty
    | leaf n =>
      rw [hs, content_leaf, eq_comm, content_eq_leaf_iff] at hpath
      rw [hpath]
      exact .leaf n
    | node z =>
      rw [hs, content_node, eq_comm, content_eq_table_iff] at hpath
      obtain ⟨z', hz', -⟩ := hpath
      rw [hz']
      exact .node ⟨path ++ [i], hxi.trans hs, hyi.trans hz'⟩
  biUnique := by
    constructor
    · rintro x x' y ⟨p, hx, hp⟩ ⟨q, hx', hq⟩
      have hpq := Sharing.slotAt_eq hl' h' h hv.symm hp hq
      rw [hx, hx'] at hpq
      exact Slot.node.inj hpq
    · rintro x y y' ⟨p, hp, hy⟩ ⟨q, hq, hy'⟩
      have hpq := Sharing.slotAt_eq hl h h' hv hp hq
      rw [hy, hy'] at hpq
      exact Slot.node.inj hpq

end sharing

end Trie

end DecodeTrie
