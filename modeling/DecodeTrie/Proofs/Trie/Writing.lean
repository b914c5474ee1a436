import DecodeTrie.Proofs.Trie.Links

/-!
# Writing into empty positions

Creating a table in an empty position, and putting a number there, keep the references in order.
What they change is what stands at the paths that lead to the position (`view_addTable`,
`view_setLeaf`).

`Extends` is what all insertions have in common as long as no child is detached: what stands
somewhere stays there.
-/

namespace DecodeTrie.Trie

/-! ## Extensions -/

/-- What stands in a slot of a trie stands in that slot of another trie as well. -/
structure Extends (t t' : Trie) : Prop where
  /-- No node is lost. -/
  size_le : t.size ≤ t'.size
  /-- Nodes keep their kinds. -/
  kind_eq : ∀ {x : NodeId}, x < t.size → t'.kind x = t.kind x
  /-- Slots keep their contents. -/
  slot_eq : ∀ {p : Position}, t.slot p ≠ .empty → t'.slot p = t.slot p
  /-- References to old nodes are old. -/
  old : ∀ {p : Position} {y : NodeId}, y < t.size → t'.slot p = .node y → t.slot p = .node y

namespace Extends

variable {t t' t'' : Trie}

theorem refl (t : Trie) : Extends t t :=
  ⟨Nat.le_refl _, fun _ ↦ rfl, fun _ ↦ rfl, fun _ hp ↦ hp⟩

theorem trans (h : Extends t t') (h' : Extends t' t'') : Extends t t'' where
  size_le := h.size_le.trans h'.size_le
  kind_eq hx := (h'.kind_eq (Nat.lt_of_lt_of_le hx h.size_le)).trans (h.kind_eq hx)
  slot_eq hp := by
    have hp' := h.slot_eq hp
    rw [h'.slot_eq (by rwa [hp']), hp']
  old hy hp := h.old hy (h'.old (Nat.lt_of_lt_of_le hy h.size_le) hp)

theorem slotAt_eq (h : Extends t t') {path : List Nat} (hp : t.slotAt path ≠ .empty) :
    t'.slotAt path = t.slotAt path := by
  induction path using List.reverseRecOn with
  | nil => rfl
  | append_singleton q i ih =>
    rw [slotAt_concat] at hp
    rw [slotAt_concat, slotAt_concat]
    cases hq : t.slotAt q with
    | empty => rw [hq] at hp; exact absurd rfl hp
    | leaf n => rw [hq] at hp; exact absurd rfl hp
    | node x =>
      rw [hq, enter_node] at hp
      rw [ih (by rw [hq]; exact Slot.noConfusion), hq, enter_node, enter_node, h.slot_eq hp]

theorem slotAt_node (h : Extends t t') {path : List Nat} {x : NodeId}
    (hp : t.slotAt path = .node x) : t'.slotAt path = .node x :=
  slotAt_node_of_slots (fun _ hs ↦ h.slot_eq hs) hp

theorem view_eq (h : Extends t t') (hl : t.WellLinked) {path : List Nat} {v : Content}
    (hv : t.view path = some v) : t'.view path = some v := by
  rw [view] at hv ⊢
  have hne : t.slotAt path ≠ .empty := by
    intro he
    rw [he] at hv
    cases hv
  rw [h.slotAt_eq hne]
  cases hs : t.slotAt path with
  | empty => exact absurd hs hne
  | leaf n => rwa [hs] at hv
  | node x =>
    rw [hs] at hv
    rwa [content_node, h.kind_eq (hl.lt_size_of_slotAt hs)]

/-- Only old paths lead to an old node. -/
theorem slotAt_old (h : Extends t t') {path : List Nat} {x : NodeId} (hx : x < t.size)
    (hp : t'.slotAt path = .node x) : t.slotAt path = .node x := by
  induction path using List.reverseRecOn generalizing x with
  | nil => exact hp
  | append_singleton q i ih =>
    obtain ⟨z, hq, hz⟩ := WellLinked.exists_parent_of_slotAt hp
    have hz' := h.old hx hz
    have hlt := (lt_of_slot_node hz').1
    rw [slotAt_concat, ih hlt hq, enter_node, hz']

end Extends

/-! ## Creating a table -/

/-- The trie with a new table in a position. -/
def addTable (t : Trie) (p : Position) (kind : NodeKind) : Trie :=
  (t.push (Node.new kind)).set p (.node t.size)

section addTable

variable {t : Trie} {p : Position} {kind : NodeKind}

theorem size_addTable : (t.addTable p kind).size = t.size + 1 := by
  rw [addTable, size_set, size_push]

theorem kind_addTable (x : NodeId) :
    (t.addTable p kind).kind x = if x = t.size then kind else t.kind x := by
  rw [addTable, kind_set, kind_push, Node.kind_new]

theorem slot_addTable (hp : p.node < t.size) (hs : p.slot < (t.kind p.node).slotCount)
    (q : Position) :
    (t.addTable p kind).slot q = if q = p then .node t.size else t.slot q := by
  rw [addTable, slot_set, slot_push_new]
  · rw [size_push]; exact Nat.lt_succ_of_lt hp
  · rwa [kind_push, if_neg (Nat.ne_of_lt hp)]

variable (hp : p.node < t.size) (hs : p.slot < (t.kind p.node).slotCount)
  (he : t.slot p = .empty)

include hp hs he

theorem extends_addTable : Extends t (t.addTable p kind) where
  size_le := by rw [size_addTable]; exact Nat.le_succ _
  kind_eq hx := by rw [kind_addTable, if_neg (Nat.ne_of_lt hx)]
  slot_eq {q} hq := by
    rw [slot_addTable hp hs, if_neg]
    rintro rfl
    exact hq he
  old {q y} hy hq := by
    rw [slot_addTable hp hs] at hq
    split at hq
    · cases hq; exact absurd hy (Nat.lt_irrefl _)
    · exact hq

/-- The new table has no contents. -/
theorem slot_addTable_size (i : Nat) : (t.addTable p kind).slot ⟨t.size, i⟩ = .empty := by
  rw [slot_addTable hp hs, if_neg, slot_of_size_le (Nat.le_refl _)]
  rintro rfl
  exact absurd hp (Nat.lt_irrefl _)

theorem WellLinked.addTable (h : t.WellLinked) (hk : (t.kind p.node).Precedes kind) :
    (t.addTable p kind).WellLinked := by
  have hslot (q : Position) :
      (t.addTable p kind).slot q = if q = p then .node t.size else t.slot q :=
    slot_addTable hp hs q
  have hkind {x : NodeId} (hx : x < t.size) : (t.addTable p kind).kind x = t.kind x := by
    rw [kind_addTable, if_neg (Nat.ne_of_lt hx)]
  -- A reference is the new one, or an old one between old nodes.
  have hcases {q : Position} {j : NodeId} (hj : (t.addTable p kind).slot q = .node j) :
      q = p ∧ j = t.size ∨ t.slot q = .node j ∧ q.node < t.size ∧ j < t.size := by
    rw [hslot] at hj
    split at hj
    · next hq => cases hj; exact .inl ⟨hq, rfl⟩
    · exact .inr ⟨hj, (lt_of_slot_node hj).1, h.lt_size hj⟩
  constructor
  · rw [size_addTable]; exact Nat.succ_pos _
  · exact (hkind (x := root) h.size_pos).trans h.kind_root
  · intro q j hj
    rw [size_addTable]
    rcases hcases hj with ⟨-, rfl⟩ | ⟨-, -, hj'⟩
    · exact Nat.lt_succ_self _
    · exact Nat.lt_succ_of_lt hj'
  · intro q j hj
    rcases hcases hj with ⟨-, rfl⟩ | ⟨hj', -, -⟩
    · exact Nat.ne_of_gt h.size_pos
    · exact h.ne_root hj'
  · intro q r j hq hr
    rcases hcases hq with ⟨rfl, rfl⟩ | ⟨hq', hqn, hqj⟩ <;>
      rcases hcases hr with ⟨rfl, hrj⟩ | ⟨hr', hrn, hrj⟩
    · exact ⟨rfl, .inl rfl⟩
    · exact absurd hrj (Nat.lt_irrefl _)
    · exact absurd hrj (Nat.ne_of_lt hqj)
    · obtain ⟨hnode, hsib⟩ := h.unique hq' hr'
      refine ⟨hnode, hsib.imp_right fun hm ↦ ?_⟩
      rwa [hkind hqn]
  · intro q j hj
    rcases hcases hj with ⟨rfl, rfl⟩ | ⟨hq', hqn, hqj⟩
    · rwa [hkind hp, kind_addTable, if_pos rfl]
    · rw [hkind hqn, hkind hqj]
      exact h.ordered hq'
  · intro j hj
    have hgrows : Extends t (t.addTable p kind) := extends_addTable hp hs he
    rw [size_addTable] at hj
    rcases Nat.lt_succ_iff_lt_or_eq.mp hj with hj | rfl
    · obtain ⟨q, hq⟩ := h.reached hj
      exact ⟨q, hgrows.slotAt_node hq⟩
    · obtain ⟨q, hq⟩ := h.reached hp
      exact ⟨q ++ [p.slot], by
        rw [slotAt_concat, hgrows.slotAt_node hq, enter_node, hslot, if_pos rfl]⟩

/-- The paths to the new table are those that lead to its position. -/
theorem slotAt_addTable (path : List Nat) :
    (t.Leads p path → (t.addTable p kind).slotAt path = .node t.size) ∧
      (¬ t.Leads p path → (t.addTable p kind).slotAt path = t.slotAt path) :=
  slotAt_of_write (slot_addTable hp hs) he
    (fun i ↦ by rw [enter_node, slot_addTable_size hp hs he]) path

theorem slotAt_addTable_eq_iff (h : t.WellLinked) (path : List Nat) :
    (t.addTable p kind).slotAt path = .node t.size ↔ t.Leads p path := by
  have hpath : (t.Leads p path → (t.addTable p kind).slotAt path = .node t.size) ∧
      (¬ t.Leads p path → (t.addTable p kind).slotAt path = t.slotAt path) :=
    slotAt_addTable hp hs he path
  constructor
  · intro hn
    by_contra hl
    rw [hpath.2 hl] at hn
    exact absurd (h.lt_size_of_slotAt hn) (Nat.lt_irrefl _)
  · exact hpath.1

theorem view_addTable (h : t.WellLinked) (path : List Nat) (v : Content) :
    (t.addTable p kind).view path = some v ↔
      t.view path = some v ∨ t.Leads p path ∧ v = .table kind := by
  have hpath : (t.Leads p path → (t.addTable p kind).slotAt path = .node t.size) ∧
      (¬ t.Leads p path → (t.addTable p kind).slotAt path = t.slotAt path) :=
    slotAt_addTable hp hs he path
  by_cases hl : t.Leads p path
  · have hnone : t.view path = none := by rw [view, slotAt_of_leads hl, he, content_empty]
    rw [view, hpath.1 hl, content_node, kind_addTable, if_pos rfl, hnone]
    simp [hl, eq_comm]
  · -- Elsewhere the slots are the old ones, and so are the nodes they refer to.
    rw [view, hpath.2 hl, view]
    cases hs' : t.slotAt path with
    | empty => simp [hl]
    | leaf n => simp [hl]
    | node x =>
      rw [content_node, content_node, kind_addTable,
        if_neg (Nat.ne_of_lt (h.lt_size_of_slotAt hs'))]
      simp [hl]

end addTable

/-! ## Putting a number -/

section setLeaf

variable {t : Trie} {p : Position} (hp : p.node < t.size)
  (hs : p.slot < (t.kind p.node).slotCount) (he : t.slot p = .empty) (n : Nat)

include hp hs he

theorem extends_setLeaf : Extends t (t.set p (.leaf n)) where
  size_le := by rw [size_set]
  kind_eq _ := kind_set ..
  slot_eq {q} hq := by
    rw [slot_set hp hs, if_neg]
    rintro rfl
    exact hq he
  old {q y} _ hq := by
    rw [slot_set hp hs] at hq
    split at hq
    · cases hq
    · exact hq

theorem WellLinked.setLeaf (h : t.WellLinked) : (t.set p (.leaf n)).WellLinked := by
  have hold {q : Position} {j : NodeId} (hj : (t.set p (.leaf n)).slot q = .node j) :
      t.slot q = .node j := by
    rw [slot_set hp hs] at hj
    split at hj
    · cases hj
    · exact hj
  constructor
  · rw [size_set]; exact h.size_pos
  · rw [kind_set, h.kind_root]
  · intro q j hj
    rw [size_set]
    exact h.lt_size (hold hj)
  · intro q j hj
    exact h.ne_root (hold hj)
  · intro q r j hq hr
    obtain ⟨hnode, hsib⟩ := h.unique (hold hq) (hold hr)
    refine ⟨hnode, hsib.imp_right fun hm ↦ ?_⟩
    rwa [kind_set]
  · intro q j hj
    rw [kind_set, kind_set]
    exact h.ordered (hold hj)
  · intro j hj
    rw [size_set] at hj
    obtain ⟨q, hq⟩ := h.reached hj
    exact ⟨q, (extends_setLeaf hp hs he n).slotAt_node hq⟩

theorem view_setLeaf (path : List Nat) (v : Content) :
    (t.set p (.leaf n)).view path = some v ↔
      t.view path = some v ∨ t.Leads p path ∧ v = .leaf n := by
  have hpath := slotAt_of_write (slot_set hp hs (.leaf n)) he (fun i ↦ enter_leaf _ n i) path
  by_cases hl : t.Leads p path
  · have hnone : t.view path = none := by rw [view, slotAt_of_leads hl, he, content_empty]
    rw [view, hpath.1 hl, content_leaf, hnone]
    simp [hl, eq_comm]
  · rw [view, hpath.2 hl, view]
    cases hs' : t.slotAt path <;> simp [hl]

end setLeaf

end DecodeTrie.Trie
