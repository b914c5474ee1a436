import DecodeTrie.Proofs.Trie.Copying

/-!
# The recursion of a copy

`CopiesSlots` is the recursion that copies a subtree as it is written, without a bound on its depth:
the slots of a node are gone through one after the other, and where one refers to a node, that node
is copied first, slot by slot, and appended. Where the paths below a node are bounded the recursion
ends, and the bounded copy is what it ends with (`copies_iff`).

By induction on the recursion, the nodes that are appended are those of the copy in post-order
(`Copies.postorder`): those below the first slots come first, and the copy itself comes last.
-/

namespace DecodeTrie

/-- The children of a node are what its slots refer to. -/
theorem Node.children_eq (n : Node) :
    n.children = (List.range n.kind.slotCount).filterMap fun i ↦ (n.slot i).child? := by
  have hslots : n.slots.toList = (List.range n.kind.slotCount).map n.slot := by
    refine List.ext_getElem (by simp) fun i hi hi' ↦ ?_
    have hlt : i < n.kind.slotCount := by simpa using hi'
    simp [slot, hlt]
  rw [children, hslots, List.filterMap_map]
  rfl

namespace Trie

/-! ## The recursion -/

/-- **The recursion of a copy.** Slots of a node are gone through, in a trie to which nodes are
appended on the way. A slot that refers to a node gets a copy of it instead. -/
inductive CopiesSlots : Trie → Node → List Nat → Trie → Node → Prop
  /-- There are no more slots. -/
  | done {t : Trie} {n : Node} : CopiesSlots t n [] t n
  /-- A slot that refers to no node stays as it is. -/
  | keep {t t' : Trie} {n n' : Node} {i : Nat} {slots : List Nat}
    (h : ∀ child, n.slot i ≠ .node child) (hrest : CopiesSlots t n slots t' n') :
    CopiesSlots t n (i :: slots) t' n'
  /-- A node in a slot is copied, slot by slot, and the copy is appended. -/
  | child {t below t' : Trie} {n m n' : Node} {i : Nat} {child : NodeId} {slots : List Nat}
    (h : n.slot i = .node child)
    (hbelow : CopiesSlots t (t.node child) (List.range (t.kind child).slotCount) below m)
    (hrest : CopiesSlots (below.push m) (n.set i (.node below.size)) slots t' n') :
    CopiesSlots t n (i :: slots) t' n'

/-- The copy of a node comes to its end with a trie and the number of the copy: all slots of the
node are gone through, and then the copy is appended. -/
def Copies (t : Trie) (id : NodeId) (t' : Trie) (copy : NodeId) : Prop :=
  ∃ below n, CopiesSlots t (t.node id) (List.range (t.kind id).slotCount) below n ∧
    t' = below.push n ∧ copy = below.size

namespace CopiesSlots

variable {t t' : Trie} {n n' : Node} {slots : List Nat}

/-- The recursion ends in one way only. -/
theorem unique {t'' : Trie} {n'' : Node} (h : CopiesSlots t n slots t' n')
    (h' : CopiesSlots t n slots t'' n'') : t' = t'' ∧ n' = n'' := by
  induction h generalizing t'' n'' with
  | done =>
    cases h'
    exact ⟨rfl, rfl⟩
  | keep hno _ ih =>
    cases h' with
    | keep _ hrest => exact ih hrest
    | child hchild _ _ => exact absurd hchild (hno _)
  | child hchild _ _ ihbelow ihrest =>
    cases h' with
    | keep hno _ => exact absurd hchild (hno _)
    | child hchild' hbelow hrest =>
      rw [hchild] at hchild'
      cases hchild'
      obtain ⟨rfl, rfl⟩ := ihbelow hbelow
      exact ihrest hrest

theorem appends (h : CopiesSlots t n slots t' n') : Appends t t' := by
  induction h with
  | done => exact .refl _
  | keep _ _ ih => exact ih
  | child _ _ _ ihbelow ihrest => exact (ihbelow.trans (.push _ _)).trans ihrest

/-- A slot that is not gone through stays as it is. -/
theorem slot_eq (h : CopiesSlots t n slots t' n') {i : Nat} (hi : i ∉ slots) :
    n'.slot i = n.slot i := by
  induction h with
  | done => rfl
  | keep _ _ ih => exact ih (List.not_mem_of_not_mem_cons hi)
  | child _ _ _ _ ih =>
    rw [ih (List.not_mem_of_not_mem_cons hi), Node.slot_set,
      if_neg fun h ↦ List.ne_of_not_mem_cons hi h.1.symm]

theorem kind_eq (h : CopiesSlots t n slots t' n') : n'.kind = n.kind := by
  induction h with
  | done => rfl
  | keep _ _ ih => exact ih
  | child _ _ _ _ ih => rw [ih, Node.kind_set]

/-- References stay within the trie. -/
theorem closed (h : CopiesSlots t n slots t' n') (hc : t.Closed)
    (hn : ∀ i j, n.slot i = .node j → j < t.size) :
    t'.Closed ∧ ∀ i j, n'.slot i = .node j → j < t'.size := by
  induction h with
  | done => exact ⟨hc, hn⟩
  | keep _ _ ih => exact ih hc hn
  | @child t below t' n m n' i child slots hchild hbelow hrest ihbelow ihrest =>
    obtain ⟨hbc, hm⟩ := ihbelow hc fun i j hj ↦ hc (p := ⟨child, i⟩) hj
    refine ihrest (hbc.push hm) fun k j hj ↦ ?_
    rw [size_push]
    rw [Node.slot_set] at hj
    split at hj
    · cases hj
      exact Nat.lt_succ_self _
    · exact Nat.lt_succ_of_lt (Nat.lt_of_lt_of_le (hn k j hj) hbelow.appends.size_le)

end CopiesSlots

/-! ## The recursion ends -/

/-- Copying slots comes to an end if copying the nodes that they refer to does. -/
theorem copiesSlots_foldl {bound : Nat}
    (hcopy : ∀ {t : Trie} {id : NodeId}, t.Closed → id < t.size → t.Within bound id →
      t.Copies id (copyWithin bound id t).1 (copyWithin bound id t).2)
    {t : Trie} {n : Node} {slots : List Nat} (hc : t.Closed)
    (hn : ∀ i j, n.slot i = .node j → j < t.size) (hnodup : slots.Nodup)
    (hb : ∀ i ∈ slots, ∀ j, n.slot i = .node j → t.Within bound j) :
    CopiesSlots t n slots (slots.foldl (copySlot bound) (t, n)).1
      (slots.foldl (copySlot bound) (t, n)).2 := by
  induction slots generalizing t n with
  | nil => exact .done
  | cons i slots ih =>
    obtain ⟨hi, hnodup⟩ := List.nodup_cons.mp hnodup
    rw [List.foldl_cons, copySlot]
    cases hs : n.slot i with
    | empty =>
      exact .keep (by simp [hs]) (ih hc hn hnodup fun k hk ↦ hb k (List.mem_cons_of_mem _ hk))
    | leaf m =>
      exact .keep (by simp [hs]) (ih hc hn hnodup fun k hk ↦ hb k (List.mem_cons_of_mem _ hk))
    | node child =>
      obtain ⟨below, m, hbelow, htrie, hnumber⟩ :=
        hcopy hc (hn i child hs) (hb i List.mem_cons_self child hs)
      obtain ⟨hbc, hm⟩ := hbelow.closed hc fun k j hj ↦ hc (p := ⟨child, k⟩) hj
      have happ : Appends t (below.push m) := hbelow.appends.trans (.push _ _)
      simp only [htrie, hnumber]
      refine .child hs hbelow (ih (hbc.push hm) (fun k j hj ↦ ?_) hnodup fun k hk j hj ↦ ?_)
      · rw [Node.slot_set] at hj
        split at hj
        · cases hj
          rw [size_push]
          exact Nat.lt_succ_self _
        · exact Nat.lt_of_lt_of_le (hn k j hj) happ.size_le
      · have hik : i ≠ k := fun hik ↦ hi (hik ▸ hk)
        rw [Node.slot_set, if_neg fun h ↦ hik h.1] at hj
        exact happ.within hc (hn k j hj) (hb k (List.mem_cons_of_mem _ hk) j hj)

/-- **The recursion ends** where the paths below a node are bounded, with the bounded copy. -/
theorem copies_copyWithin {bound : Nat} {t : Trie} {id : NodeId} (hc : t.Closed) (hid : id < t.size)
    (hb : t.Within bound id) :
    t.Copies id (copyWithin bound id t).1 (copyWithin bound id t).2 := by
  induction bound generalizing t id with
  | zero => exact hb.elim
  | succ bound ih =>
    exact ⟨_, _, copiesSlots_foldl ih hc (fun i j hj ↦ hc (p := ⟨id, i⟩) hj) List.nodup_range
      fun i _ j hj ↦ hb i j hj, rfl, rfl⟩

/-- **The copy of a subtree** is what the recursion ends with, and it ends in no other way. -/
theorem copies_iff {t t' : Trie} {id copy : NodeId} (hc : t.Closed) (hid : id < t.size)
    (hb : t.Within t.size id) : t.Copies id t' copy ↔ t.copySubtree id = (t', copy) := by
  obtain ⟨below, n, hslots, htrie, hnumber⟩ := copies_copyWithin hc hid hb
  constructor
  · rintro ⟨below', n', hslots', rfl, rfl⟩
    obtain ⟨rfl, rfl⟩ := hslots.unique hslots'
    exact Prod.ext htrie hnumber
  · intro h
    rw [copySubtree] at h
    rw [h] at htrie hnumber
    exact ⟨below, n, hslots, htrie, hnumber⟩

/-! ## The order of the new nodes -/

/-- Nodes and all that is below them in post-order: what is below the slots of a node comes first,
in the order of the slots, and then comes the node. -/
inductive Postorder (t : Trie) : List NodeId → List NodeId → Prop
  /-- There are no more nodes. -/
  | nil : Postorder t [] []
  /-- A node comes behind what is below it, and in front of what is below the next ones. -/
  | cons {x : NodeId} {xs below rest : List NodeId}
    (hbelow : Postorder t (t.node x).children below) (hrest : Postorder t xs rest) :
    Postorder t (x :: xs) (below ++ x :: rest)

/-- Appending nodes changes no order among the old ones. -/
theorem Postorder.appends {t t' : Trie} {xs order : List NodeId} (h : t.Postorder xs order)
    (happ : Appends t t') (hlt : ∀ y ∈ order, y < t.size) : t'.Postorder xs order := by
  induction h with
  | nil => exact .nil
  | @cons x xs below rest _ _ ihbelow ihrest =>
    have hx : x < t.size := hlt x (by simp)
    refine .cons ?_ (ihrest fun y hy ↦ hlt y (by simp [hy]))
    rw [happ.node_eq hx]
    exact ihbelow fun y hy ↦ hlt y (by simp [hy])

/-- The numbers that are given to new nodes. -/
def newNodes (t t' : Trie) : List Nat := List.range' t.size (t'.size - t.size)

theorem mem_newNodes {t t' : Trie} {x : Nat} :
    x ∈ newNodes t t' ↔ t.size ≤ x ∧ x < t'.size := by
  rw [newNodes, List.mem_range'_1]
  omega

theorem newNodes_self (t : Trie) : newNodes t t = [] := by
  rw [newNodes, Nat.sub_self, List.range'_zero]

/-- The nodes that are appended one row after the other. -/
theorem newNodes_push {t below t' : Trie} {m : Node} (h : Appends t below)
    (h' : Appends (below.push m) t') :
    newNodes t t' = newNodes t below ++ below.size :: newNodes (below.push m) t' := by
  have hle := h.size_le
  have hle' := h'.size_le
  rw [size_push] at hle'
  have hrest : newNodes (below.push m) t' = List.range' (below.size + 1)
      (t'.size - (below.size + 1)) := by rw [newNodes, size_push]
  have happ := List.range'_append_1 (s := t.size) (m := below.size - t.size)
    (n := t'.size - (below.size + 1) + 1)
  rw [Nat.add_sub_cancel' hle] at happ
  rw [hrest, ← List.range'_succ, newNodes, newNodes, happ]
  congr 1
  omega

/-- When all slots of a node have been gone through and it is appended, the nodes that were appended
for them are those below it. -/
theorem CopiesSlots.postorder_children {t below : Trie} {n m : Node}
    (h : CopiesSlots t n (List.range n.kind.slotCount) below m)
    (hpost : below.Postorder ((List.range n.kind.slotCount).filterMap fun i ↦ (m.slot i).child?)
      (newNodes t below)) :
    (below.push m).Postorder m.children (newNodes t below) := by
  rw [Node.children_eq, h.kind_eq]
  exact hpost.appends (.push _ _) fun y hy ↦ (mem_newNodes.mp hy).2

/-- **New nodes are in post-order**: the slots that have been gone through refer to them. -/
theorem CopiesSlots.postorder {t t' : Trie} {n n' : Node} {slots : List Nat}
    (h : CopiesSlots t n slots t' n') (hnodup : slots.Nodup) :
    t'.Postorder (slots.filterMap fun i ↦ (n'.slot i).child?) (newNodes t t') := by
  induction h with
  | done =>
    rw [newNodes_self]
    exact .nil
  | @keep t t' n n' i slots hno hrest ih =>
    obtain ⟨hi, hnodup⟩ := List.nodup_cons.mp hnodup
    have hnone : (n'.slot i).child? = none := by
      rw [hrest.slot_eq hi]
      cases hs : n.slot i with
      | node j => exact absurd hs (hno j)
      | empty => rfl
      | leaf m => rfl
    simp only [List.filterMap_cons, hnone]
    exact ih hnodup
  | @child t below t' n m n' i child slots hchild hbelow hrest ihbelow ihrest =>
    obtain ⟨hi, hnodup⟩ := List.nodup_cons.mp hnodup
    have hsome : n'.slot i = .node below.size := by
      rw [hrest.slot_eq hi, Node.slot_set, if_pos]
      refine ⟨rfl, Nat.lt_of_not_le fun hle ↦ ?_⟩
      rw [Node.slot_eq_empty_of_le n hle] at hchild
      cases hchild
    simp only [List.filterMap_cons, hsome, Slot.child?]
    rw [newNodes_push hbelow.appends hrest.appends]
    -- The copy is the node behind all that were appended below it.
    have hlt : below.size < (below.push m).size := by rw [size_push]; exact Nat.lt_succ_self _
    have hnode : t'.node below.size = m := by
      rw [hrest.appends.node_eq hlt, node_push, if_pos rfl]
    have hchildren : (below.push m).Postorder m.children (newNodes t below) :=
      hbelow.postorder_children (ihbelow List.nodup_range)
    refine .cons ?_ (ihrest hnodup)
    rw [hnode]
    exact hchildren.appends hrest.appends fun y hy ↦ (mem_newNodes.mp hy).2.trans hlt

/-- **A copy is appended in post-order**, the copy last. -/
theorem Copies.postorder {t t' : Trie} {id copy : NodeId} (h : t.Copies id t' copy) :
    t'.Postorder [copy] (newNodes t t') := by
  obtain ⟨below, n, hslots, rfl, rfl⟩ := h
  have hchildren : (below.push n).Postorder n.children (newNodes t below) :=
    hslots.postorder_children (hslots.postorder List.nodup_range)
  rw [newNodes_push hslots.appends (.refl _), newNodes_self]
  refine .cons ?_ .nil
  rwa [node_push, if_pos rfl]

end Trie

end DecodeTrie
