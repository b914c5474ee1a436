import DecodeTrie.Proofs.Trie.Links

/-!
# Copies of subtrees

Copying appends a node for every path below the node that is copied, and leaves the old nodes as
they are. `IsCopy` says so: the new nodes form a tree of their own, in which everything stands
where it stood below the original.

The children of a node are copied one slot after the other, into a node that is appended when all
of them are there. `Copying` is the invariant of this loop: after `k` slots the new nodes are
trees whose roots are in the first `k` slots of that node.
-/

namespace DecodeTrie.Trie

/-! ## Appending nodes -/

/-- A trie has the nodes of another one, and perhaps more behind them. -/
structure Appends (t t' : Trie) : Prop where
  /-- No node is lost. -/
  size_le : t.size ≤ t'.size
  /-- The old nodes are what they were. -/
  node_eq : ∀ {x : NodeId}, x < t.size → t'.node x = t.node x

/-- References are to nodes of the trie. -/
def Closed (t : Trie) : Prop := ∀ ⦃p : Position⦄ ⦃j : NodeId⦄, t.slot p = .node j → j < t.size

/-- Tables follow one another in the order of their kinds. -/
def Ordered (t : Trie) : Prop :=
  ∀ ⦃p : Position⦄ ⦃j : NodeId⦄, t.slot p = .node j → (t.kind p.node).Precedes (t.kind j)

theorem WellLinked.closed {t : Trie} (h : t.WellLinked) : t.Closed := fun _ _ hj ↦ h.lt_size hj

theorem WellLinked.isOrdered {t : Trie} (h : t.WellLinked) : t.Ordered :=
  fun _ _ hj ↦ h.ordered hj

/-- Appending a node that refers to nodes of the trie keeps references within it. -/
theorem Closed.push {t : Trie} (hc : t.Closed) {n : Node}
    (hn : ∀ i j, n.slot i = .node j → j < t.size) : (t.push n).Closed := by
  intro p j hj
  rw [slot_push] at hj
  rw [size_push]
  split at hj
  · exact Nat.lt_succ_of_lt (hn _ _ hj)
  · exact Nat.lt_succ_of_lt (hc hj)

/-- A path from a node of the trie ends within the trie. -/
theorem Closed.slotFrom_lt {t : Trie} (hc : t.Closed) {s : Slot}
    (hs : ∀ x, s = .node x → x < t.size) {path : List Nat} {x : NodeId}
    (hx : t.slotFrom s path = .node x) : x < t.size := by
  induction path generalizing s with
  | nil => exact hs x hx
  | cons i path ih =>
    refine ih (fun y hy ↦ ?_) hx
    cases s with
    | node z => exact hc hy
    | empty => cases hy
    | leaf n => cases hy

namespace Appends

variable {t t' t'' : Trie}

theorem refl (t : Trie) : Appends t t := ⟨Nat.le_refl _, fun _ ↦ rfl⟩

theorem trans (h : Appends t t') (h' : Appends t' t'') : Appends t t'' where
  size_le := h.size_le.trans h'.size_le
  node_eq hx := (h'.node_eq (Nat.lt_of_lt_of_le hx h.size_le)).trans (h.node_eq hx)

theorem push (t : Trie) (n : Node) : Appends t (t.push n) where
  size_le := by rw [size_push]; exact Nat.le_succ _
  node_eq hx := by rw [node_push, if_neg (Nat.ne_of_lt hx)]

theorem slot_eq (h : Appends t t') {p : Position} (hp : p.node < t.size) :
    t'.slot p = t.slot p := by
  rw [slot, slot, h.node_eq hp]

theorem kind_eq (h : Appends t t') {x : NodeId} (hx : x < t.size) : t'.kind x = t.kind x := by
  rw [kind, kind, h.node_eq hx]

/-- A path from an old node goes where it went. -/
theorem slotFrom_eq (h : Appends t t') (hc : t.Closed) {s : Slot}
    (hs : ∀ x, s = .node x → x < t.size) (path : List Nat) :
    t'.slotFrom s path = t.slotFrom s path := by
  induction path generalizing s with
  | nil => rfl
  | cons i path ih =>
    have henter : t'.enter s i = t.enter s i := by
      cases s with
      | node x => exact h.slot_eq (hs x rfl)
      | empty => rfl
      | leaf n => rfl
    rw [slotFrom_cons, slotFrom_cons, henter]
    refine ih fun x hx ↦ ?_
    cases s with
    | node y => exact hc hx
    | empty => cases hx
    | leaf n => cases hx

/-- What stands below an old node stands there still. -/
theorem viewFrom_eq (h : Appends t t') (hc : t.Closed) {s : Slot}
    (hs : ∀ x, s = .node x → x < t.size) (path : List Nat) :
    t'.viewFrom s path = t.viewFrom s path := by
  rw [viewFrom, h.slotFrom_eq hc hs, viewFrom]
  cases hx : t.slotFrom s path with
  | node x => rw [content_node, content_node, h.kind_eq (hc.slotFrom_lt hs hx)]
  | empty => rfl
  | leaf n => rfl

theorem within (h : Appends t t') (hc : t.Closed) {bound : Nat} {x : NodeId} (hx : x < t.size)
    (hb : t.Within bound x) : t'.Within bound x := by
  induction bound generalizing x with
  | zero => exact hb
  | succ bound ih =>
    intro i y hy
    rw [h.slot_eq (p := ⟨x, i⟩) hx] at hy
    exact ih (hc hy) (hb i y hy)

end Appends

/-! ## Copies -/

/-- The nodes behind those of `t` form a tree with the root `copy`, in which everything stands
where it stands below the node `id` of `t`. -/
structure IsCopy (t t' : Trie) (id copy : NodeId) : Prop where
  /-- The old nodes are what they were. -/
  appends : Appends t t'
  /-- The copy is the last node, and new. -/
  size_eq : t'.size = copy + 1
  size_le : t.size ≤ copy
  /-- New nodes refer to new nodes that come before them. -/
  inner : ∀ {p : Position} {j : NodeId}, t.size ≤ p.node → t'.slot p = .node j →
    t.size ≤ j ∧ j < p.node ∧ (t'.kind p.node).Precedes (t'.kind j)
  /-- No two positions of new nodes refer to the same node. -/
  unique : ∀ {p q : Position} {j : NodeId}, t.size ≤ p.node → t.size ≤ q.node →
    t'.slot p = .node j → t'.slot q = .node j → p = q
  /-- A new node but the copy is referred to from a new node. -/
  referred : ∀ {j : NodeId}, t.size ≤ j → j < copy → ∃ p : Position, t.size ≤ p.node ∧
    t'.slot p = .node j
  /-- What stands below the original stands below the copy. -/
  view : ∀ path, t'.viewFrom (.node copy) path = t.viewFrom (.node id) path

theorem IsCopy.kind_eq {t t' : Trie} {id copy : NodeId} (h : IsCopy t t' id copy) :
    t'.kind copy = t.kind id := by
  simpa [viewFrom] using h.view []

/-- A reference is one from before the copy, or one within the copy. -/
theorem IsCopy.old_or_new {t t' : Trie} {id copy : NodeId} (h : IsCopy t t' id copy) {p : Position}
    {j : NodeId} (hj : t'.slot p = .node j) :
    p.node < t.size ∧ t.slot p = .node j ∨ t.size ≤ p.node := by
  rcases Nat.lt_or_ge p.node t.size with hp | hp
  · exact .inl ⟨hp, by rw [← h.appends.slot_eq hp, hj]⟩
  · exact .inr hp

/-- No new node refers to the copy. -/
theorem IsCopy.lt_copy {t t' : Trie} {id copy : NodeId} (h : IsCopy t t' id copy) {p : Position}
    {j : NodeId} (hp : t.size ≤ p.node) (hj : t'.slot p = .node j) : j < copy := by
  have hlt := (lt_of_slot_node hj).1
  rw [h.size_eq] at hlt
  exact Nat.lt_of_lt_of_le (h.inner hp hj).2.1 (Nat.le_of_lt_succ hlt)

/-- The new nodes after the first `k` slots of the node `id` have been copied into the node `n`. -/
structure Copying (t : Trie) (id : NodeId) (k : Nat) (t' : Trie) (n : Node) : Prop where
  /-- The old nodes are what they were. -/
  appends : Appends t t'
  /-- New nodes refer to new nodes that come before them. -/
  inner : ∀ {p : Position} {j : NodeId}, t.size ≤ p.node → t'.slot p = .node j →
    t.size ≤ j ∧ j < p.node ∧ (t'.kind p.node).Precedes (t'.kind j)
  /-- No two positions of new nodes refer to the same node. -/
  unique : ∀ {p q : Position} {j : NodeId}, t.size ≤ p.node → t.size ≤ q.node →
    t'.slot p = .node j → t'.slot q = .node j → p = q
  /-- The node is of the kind of the original. -/
  kind_eq : n.kind = t.kind id
  /-- The slots from `k` on are those of the original. -/
  old : ∀ {i : Nat}, k ≤ i → n.slot i = t.slot ⟨id, i⟩
  /-- The slots before `k` refer to new nodes to which nothing else refers. -/
  fresh : ∀ {i : Nat} {j : NodeId}, i < k → n.slot i = .node j → t.size ≤ j ∧ j < t'.size ∧
    (t.kind id).Precedes (t'.kind j) ∧ ∀ p : Position, t.size ≤ p.node → t'.slot p ≠ .node j
  /-- Different slots before `k` refer to different nodes. -/
  inj : ∀ {i i' : Nat} {j : NodeId}, i < k → i' < k → n.slot i = .node j → n.slot i' = .node j →
    i = i'
  /-- Every new node is referred to. -/
  referred : ∀ {j : NodeId}, t.size ≤ j → j < t'.size →
    (∃ p : Position, t.size ≤ p.node ∧ t'.slot p = .node j) ∨ ∃ i < k, n.slot i = .node j
  /-- What stands below the first `k` slots of the original stands below those of the node. -/
  view : ∀ {i : Nat} (path : List Nat), i < k →
    t'.viewFrom (n.slot i) path = t.viewFrom (t.slot ⟨id, i⟩) path

/-- Copies one slot. -/
def copySlot (bound : Nat) (acc : Trie × Node) (i : Nat) : Trie × Node :=
  match acc.2.slot i with
  | .node child =>
    let below := copyWithin bound child acc.1
    (below.1, acc.2.set i (.node below.2))
  | _ => acc

theorem copyWithin_succ (bound : Nat) (id : NodeId) (t : Trie) :
    copyWithin (bound + 1) id t =
      let copy := (List.range (t.kind id).slotCount).foldl (copySlot bound) (t, t.node id)
      (copy.1.push copy.2, copy.1.size) := rfl

namespace Copying

variable {t t' : Trie} {id : NodeId} {k : Nat} {n : Node}

/-- Before the first slot nothing is new. -/
theorem zero (t : Trie) (id : NodeId) : Copying t id 0 t (t.node id) where
  appends := Appends.refl t
  inner hp hj := by
    rw [slot_of_size_le hp] at hj
    cases hj
  unique hp _ hj := by
    rw [slot_of_size_le hp] at hj
    cases hj
  kind_eq := rfl
  old _ := rfl
  fresh hi := absurd hi (Nat.not_lt_zero _)
  inj hi := absurd hi (Nat.not_lt_zero _)
  referred hj hj' := absurd hj (Nat.not_le_of_lt hj')
  view _ hi := absurd hi (Nat.not_lt_zero _)

theorem closed (h : Copying t id k t' n) (hc : t.Closed) : t'.Closed := by
  intro p j hj
  by_cases hp : p.node < t.size
  · rw [h.appends.slot_eq hp] at hj
    exact Nat.lt_of_lt_of_le (hc hj) h.appends.size_le
  · have hin := h.inner (Nat.le_of_not_lt hp) hj
    exact hin.2.1.trans (lt_of_slot_node hj).1

/-- A slot that holds no node is copied as it is. -/
theorem skip (h : Copying t id k t' n) (hk : ∀ j, n.slot k ≠ .node j) :
    Copying t id (k + 1) t' n where
  appends := h.appends
  inner := h.inner
  unique := h.unique
  kind_eq := h.kind_eq
  old hi := h.old (Nat.le_of_succ_le hi)
  fresh {i j} hi hj := by
    rcases Nat.lt_succ_iff_lt_or_eq.mp hi with hi | rfl
    · exact h.fresh hi hj
    · exact absurd hj (hk j)
  inj {i i' j} hi hi' hj hj' := by
    rcases Nat.lt_succ_iff_lt_or_eq.mp hi with hi | rfl
    · rcases Nat.lt_succ_iff_lt_or_eq.mp hi' with hi' | rfl
      · exact h.inj hi hi' hj hj'
      · exact absurd hj' (hk j)
    · exact absurd hj (hk j)
  referred hj hj' := (h.referred hj hj').imp_right fun ⟨i, hi, hs⟩ ↦ ⟨i, Nat.lt_succ_of_lt hi, hs⟩
  view {i} path hi := by
    rcases Nat.lt_succ_iff_lt_or_eq.mp hi with hi | rfl
    · exact h.view path hi
    · rw [← h.old (Nat.le_refl _)]
      cases hs : n.slot i with
      | node j => exact absurd hs (hk j)
      | empty => rw [viewFrom, viewFrom, slotFrom_empty, slotFrom_empty]; rfl
      | leaf m =>
        rw [viewFrom, viewFrom, slotFrom_leaf, slotFrom_leaf]
        split <;> rfl

section step

variable (h : Copying t id k t' n) {child copy : NodeId} {t'' : Trie}
  (hcopy : IsCopy t' t'' child copy)

include h

/-- The slots of the node after one more has got its copy. -/
theorem slot_set (hk : k < (t.kind id).slotCount) (s : Slot) (i : Nat) :
    (n.set k s).slot i = if i = k then s else n.slot i := by
  rw [Node.slot_set, h.kind_eq]
  by_cases hi : k = i
  · rw [if_pos ⟨hi, hk⟩, if_pos hi.symm]
  · rw [if_neg fun hi' ↦ hi hi'.1, if_neg fun hi' ↦ hi hi'.symm]

/-- A node that an earlier new node refers to is not behind the earlier new nodes. -/
theorem lt_size_of_new {p : Position} {j : NodeId} (hp : t.size ≤ p.node) (hp' : p.node < t'.size)
    (hj : t'.slot p = .node j) : j < t'.size :=
  (h.inner hp hj).2.1.trans hp'

include hcopy

/-- A slot that has been copied before is not affected. -/
theorem fresh_of_old {i : Nat} {j : NodeId} (hi : i < k) (hj : n.slot i = .node j) :
    t.size ≤ j ∧ j < t''.size ∧ (t.kind id).Precedes (t''.kind j) ∧
      ∀ p : Position, t.size ≤ p.node → t''.slot p ≠ .node j := by
  obtain ⟨h1, h2, h3, h4⟩ := h.fresh hi hj
  refine ⟨h1, Nat.lt_of_lt_of_le h2 hcopy.appends.size_le, ?_, fun p hp hpj ↦ ?_⟩
  · rwa [hcopy.appends.kind_eq h2]
  · rcases hcopy.old_or_new hpj with ⟨-, hpj'⟩ | hp'
    · exact h4 p hp hpj'
    · exact absurd (hcopy.inner hp' hpj).1 (Nat.not_le_of_lt h2)

/-- The copy is new, and nothing refers to it yet. -/
theorem fresh_copy (hc : t.Closed) (hord : t.Ordered) (hchild : t.slot ⟨id, k⟩ = .node child) :
    t.size ≤ copy ∧ copy < t''.size ∧ (t.kind id).Precedes (t''.kind copy) ∧
      ∀ p : Position, t.size ≤ p.node → t''.slot p ≠ .node copy := by
  refine ⟨h.appends.size_le.trans hcopy.size_le, by rw [hcopy.size_eq]; exact Nat.lt_succ_self _,
    ?_, fun p hp hpj ↦ ?_⟩
  · rw [hcopy.kind_eq, h.appends.kind_eq (hc hchild)]
    exact hord hchild
  · rcases hcopy.old_or_new hpj with ⟨hp', hpj'⟩ | hp'
    · exact absurd hcopy.size_le (Nat.not_le_of_lt (h.lt_size_of_new hp hp' hpj'))
    · exact Nat.lt_irrefl _ (hcopy.lt_copy hp' hpj)

/-- A slot that holds a node gets a copy of it. -/
theorem step (hc : t.Closed) (hord : t.Ordered) (hk : k < (t.kind id).slotCount)
    (hchild : n.slot k = .node child) :
    Copying t id (k + 1) t'' (n.set k (.node copy)) where
  appends := h.appends.trans hcopy.appends
  inner {p j} hp hj := by
    rcases hcopy.old_or_new hj with ⟨hp', hj'⟩ | hp'
    · have hin := h.inner hp hj'
      rw [hcopy.appends.kind_eq hp', hcopy.appends.kind_eq (h.lt_size_of_new hp hp' hj')]
      exact hin
    · obtain ⟨hle, hin⟩ := hcopy.inner hp' hj
      exact ⟨h.appends.size_le.trans hle, hin⟩
  unique {p q j} hp hq hpj hqj := by
    rcases hcopy.old_or_new hpj with ⟨hp', hpj'⟩ | hp' <;>
      rcases hcopy.old_or_new hqj with ⟨hq', hqj'⟩ | hq'
    · exact h.unique hp hq hpj' hqj'
    · exact absurd (hcopy.inner hq' hqj).1 (Nat.not_le_of_lt (h.lt_size_of_new hp hp' hpj'))
    · exact absurd (hcopy.inner hp' hpj).1 (Nat.not_le_of_lt (h.lt_size_of_new hq hq' hqj'))
    · exact hcopy.unique hp' hq' hpj hqj
  kind_eq := h.kind_eq
  old {i} hi := by rw [h.slot_set hk, if_neg (Nat.ne_of_gt hi), h.old (Nat.le_of_succ_le hi)]
  fresh {i j} hi hj := by
    rw [h.slot_set hk] at hj
    by_cases hik : i = k
    · rw [if_pos hik] at hj
      cases hj
      exact h.fresh_copy hcopy hc hord (by rw [← h.old (Nat.le_refl k), hchild])
    · rw [if_neg hik] at hj
      exact h.fresh_of_old hcopy (Nat.lt_of_le_of_ne (Nat.le_of_lt_succ hi) hik) hj
  inj {i i' j} hi hi' hj hj' := by
    -- The copy is behind everything that the other slots refer to.
    have hne {i : Nat} (hi : i < k + 1) (hik : i ≠ k) : n.slot i ≠ .node copy := fun hj ↦
      absurd hcopy.size_le (Nat.not_le_of_lt
        (h.fresh (Nat.lt_of_le_of_ne (Nat.le_of_lt_succ hi) hik) hj).2.1)
    rw [h.slot_set hk] at hj hj'
    by_cases hik : i = k <;> by_cases hik' : i' = k
    · rw [hik, hik']
    · rw [if_pos hik] at hj
      rw [if_neg hik'] at hj'
      cases hj
      exact absurd hj' (hne hi' hik')
    · rw [if_neg hik] at hj
      rw [if_pos hik'] at hj'
      cases hj'
      exact absurd hj (hne hi hik)
    · rw [if_neg hik] at hj
      rw [if_neg hik'] at hj'
      exact h.inj (Nat.lt_of_le_of_ne (Nat.le_of_lt_succ hi) hik)
        (Nat.lt_of_le_of_ne (Nat.le_of_lt_succ hi') hik') hj hj'
  referred {j} hj hj' := by
    rcases Nat.lt_or_ge j t'.size with hlt' | hge
    · rcases h.referred hj hlt' with ⟨p, hp, hs⟩ | ⟨i, hi, hs⟩
      · have hp' := (lt_of_slot_node hs).1
        exact .inl ⟨p, hp, by rw [hcopy.appends.slot_eq hp', hs]⟩
      · exact .inr ⟨i, Nat.lt_succ_of_lt hi, by rw [h.slot_set hk, if_neg (Nat.ne_of_lt hi), hs]⟩
    · rw [hcopy.size_eq] at hj'
      rcases Nat.lt_succ_iff_lt_or_eq.mp hj' with hlt' | rfl
      · obtain ⟨p, hp, hs⟩ := hcopy.referred hge hlt'
        exact .inl ⟨p, h.appends.size_le.trans hp, hs⟩
      · exact .inr ⟨k, Nat.lt_succ_self k, by rw [h.slot_set hk, if_pos rfl]⟩
  view {i} path hi := by
    rw [h.slot_set hk]
    by_cases hik : i = k
    · subst hik
      have hold : t.slot ⟨id, i⟩ = .node child := by rw [← h.old (Nat.le_refl i), hchild]
      rw [if_pos rfl, hcopy.view, hold]
      exact h.appends.viewFrom_eq hc (fun x hx ↦ by cases hx; exact hc hold) path
    · rw [if_neg hik]
      have hi' := Nat.lt_of_le_of_ne (Nat.le_of_lt_succ hi) hik
      rw [hcopy.appends.viewFrom_eq (h.closed hc) (fun x hx ↦ (h.fresh hi' hx).2.1) path]
      exact h.view path hi'

end step

/-- When all slots are copied, the node is appended and is the copy. -/
theorem isCopy (h : Copying t id (t.kind id).slotCount t' n) (hc : t.Closed) :
    IsCopy t (t'.push n) id t'.size := by
  have hslot {p : Position} (hp : p.node ≠ t'.size) : (t'.push n).slot p = t'.slot p := by
    rw [slot_push, if_neg hp]
  have hlast {p : Position} (hp : p.node = t'.size) : (t'.push n).slot p = n.slot p.slot := by
    rw [slot_push, if_pos hp]
  have happ : Appends t' (t'.push n) := Appends.push t' n
  -- The slots of the last node are the first `slotCount` ones.
  have hbelow {i : Nat} {j : NodeId} (hi : n.slot i = .node j) : i < (t.kind id).slotCount := by
    by_contra hi'
    rw [Node.slot_eq_empty_of_le n (by rw [h.kind_eq]; exact Nat.le_of_not_lt hi')] at hi
    cases hi
  have hkind : (t'.push n).kind t'.size = t.kind id := by rw [kind_push, if_pos rfl, h.kind_eq]
  have hclosed := h.closed hc
  refine ⟨h.appends.trans happ, size_push _ _, h.appends.size_le, ?_, ?_, ?_, ?_⟩
  · intro p j hp hj
    by_cases hp' : p.node = t'.size
    · rw [hlast hp'] at hj
      obtain ⟨h1, h2, h3, -⟩ := h.fresh (hbelow hj) hj
      rw [hp', hkind, happ.kind_eq h2]
      exact ⟨h1, h2, h3⟩
    · rw [hslot hp'] at hj
      have hp'' := (lt_of_slot_node hj).1
      rw [happ.kind_eq hp'', happ.kind_eq (hclosed hj)]
      exact h.inner hp hj
  · intro p q j hp hq hpj hqj
    by_cases hp' : p.node = t'.size <;> by_cases hq' : q.node = t'.size
    · rw [hlast hp'] at hpj
      rw [hlast hq'] at hqj
      have hs := h.inj (hbelow hpj) (hbelow hqj) hpj hqj
      cases p
      cases q
      exact Position.mk.injEq .. ▸ ⟨hp'.trans hq'.symm, hs⟩
    · rw [hlast hp'] at hpj
      rw [hslot hq'] at hqj
      exact absurd hqj ((h.fresh (hbelow hpj) hpj).2.2.2 q hq)
    · rw [hlast hq'] at hqj
      rw [hslot hp'] at hpj
      exact absurd hpj ((h.fresh (hbelow hqj) hqj).2.2.2 p hp)
    · rw [hslot hp'] at hpj
      rw [hslot hq'] at hqj
      exact h.unique hp hq hpj hqj
  · intro j hj hj'
    rcases h.referred hj hj' with ⟨p, hp, hs⟩ | ⟨i, -, hs⟩
    · have hp' := (lt_of_slot_node hs).1
      exact ⟨p, hp, by rw [hslot (Nat.ne_of_lt hp'), hs]⟩
    · exact ⟨⟨t'.size, i⟩, h.appends.size_le, by rw [hlast rfl, hs]⟩
  · intro path
    cases path with
    | nil => simp only [viewFrom, slotFrom_nil, content_node, hkind]
    | cons i path =>
      rw [viewFrom, slotFrom_cons, enter_node, hlast rfl, viewFrom, slotFrom_cons, enter_node]
      rcases Nat.lt_or_ge i (t.kind id).slotCount with hi | hi
      · have hv := happ.viewFrom_eq hclosed (s := n.slot i) (fun x hx ↦ (h.fresh hi hx).2.1) path
        exact hv.trans (h.view path hi)
      · rw [h.old hi, slot_of_slotCount_le (p := ⟨id, i⟩) hi, slotFrom_empty, slotFrom_empty]
        rfl

end Copying

/-- **Copying makes a copy**, whenever the bound covers the paths below the original. -/
theorem isCopy_copyWithin {bound : Nat} {id : NodeId} {t : Trie} (hc : t.Closed)
    (hord : t.Ordered) (hid : id < t.size) (hb : t.Within bound id) :
    IsCopy t (copyWithin bound id t).1 id (copyWithin bound id t).2 := by
  induction bound generalizing id t with
  | zero => exact hb.elim
  | succ bound ih =>
    have hloop (k : Nat) (hk : k ≤ (t.kind id).slotCount) :
        Copying t id k ((List.range k).foldl (copySlot bound) (t, t.node id)).1
          ((List.range k).foldl (copySlot bound) (t, t.node id)).2 := by
      induction k with
      | zero => exact Copying.zero t id
      | succ k ihk =>
        have h := ihk (Nat.le_of_succ_le hk)
        rw [List.range_succ, List.foldl_append, List.foldl_cons, List.foldl_nil]
        generalize (List.range k).foldl (copySlot bound) (t, t.node id) = acc at h
        rw [copySlot]
        split
        · next child hchild =>
          have hold : t.slot ⟨id, k⟩ = .node child := by rw [← h.old (Nat.le_refl k), hchild]
          have hclosed := h.closed hc
          refine h.step (ih hclosed ?_ ?_ ?_) hc hord hk hchild
          · intro p j hj
            by_cases hp : p.node < t.size
            · have hj' := hj
              rw [h.appends.slot_eq hp] at hj'
              rw [h.appends.kind_eq hp, h.appends.kind_eq (hc hj')]
              exact hord hj'
            · exact (h.inner (Nat.le_of_not_lt hp) hj).2.2
          · exact Nat.lt_of_lt_of_le (hc hold) h.appends.size_le
          · exact h.appends.within hc (hc hold) (hb k child hold)
        · next hno => exact h.skip hno
    rw [copyWithin_succ]
    exact (hloop _ (Nat.le_refl _)).isCopy hc

/-- The copy of a subtree of a trie whose references are in order. -/
theorem WellLinked.isCopy_copySubtree {t : Trie} (h : t.WellLinked) {path : List Nat} {id : NodeId}
    (hid : t.slotAt path = .node id) : IsCopy t (t.copySubtree id).1 id (t.copySubtree id).2 :=
  isCopy_copyWithin h.closed h.isOrdered (h.lt_size_of_slotAt hid) (h.within_size hid)

end DecodeTrie.Trie
