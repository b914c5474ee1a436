import DecodeTrie.Proofs.Trie.Links

/-!
# The first number below a node

A clash with a table names the first number below it. Where there is a number below the table,
`firstLeaf` finds one, and what it finds stands below the table (`exists_firstLeaf`).
-/

namespace DecodeTrie

/-- Every table at a path and behind it has a number below it. -/
def Fruitful (view : List Nat → Option Content) (path : List Nat) : Prop :=
  ∀ p k, view (path ++ p) = some (.table k) → ∃ q m, view (path ++ p ++ q) = some (.leaf m)

theorem Fruitful.append {view : List Nat → Option Content} {path : List Nat}
    (h : Fruitful view path) (p : List Nat) : Fruitful view (path ++ p) := by
  intro q k hq
  rw [List.append_assoc] at hq
  simpa [List.append_assoc] using h (p ++ q) k hq

theorem fruitful_of_none {t : Trie} {path : List Nat} (h : t.view path = none) :
    Fruitful t.view path := by
  intro p k hp
  rw [Trie.view_append_of_none h] at hp
  cases hp

namespace Node

theorem slot_mem {n : Node} {i : Nat} (h : n.slot i ≠ .empty) : n.slot i ∈ n.slots.toList := by
  rw [slot] at h ⊢
  cases hs : n.slots[i]? with
  | none => rw [hs] at h; exact absurd rfl h
  | some s => exact List.mem_of_getElem? (i := i) (by simpa using hs)

theorem exists_slot_of_mem {n : Node} {s : Slot} (h : s ∈ n.slots.toList) : ∃ i, n.slot i = s := by
  obtain ⟨i, hi, rfl⟩ := List.mem_iff_getElem.mp h
  refine ⟨i, ?_⟩
  have hi' : i < n.kind.slotCount := by simpa using hi
  simp [slot, hi']

end Node

namespace Trie

/-- What `firstLeafWithin` finds stands below the node. -/
theorem exists_viewFrom_of_firstLeafWithin {t : Trie} {bound : Nat} {id : NodeId} {m : Nat}
    (h : t.firstLeafWithin bound id = some m) :
    ∃ q, t.viewFrom (.node id) q = some (.leaf m) := by
  induction bound generalizing id with
  | zero => cases h
  | succ bound ih =>
    obtain ⟨s, hs, hm⟩ := List.exists_of_findSome?_eq_some h
    obtain ⟨i, rfl⟩ := Node.exists_slot_of_mem hs
    cases hi : (t.node id).slot i with
    | empty => rw [hi] at hm; cases hm
    | leaf n =>
      rw [hi] at hm
      cases hm
      exact ⟨[i], by rw [viewFrom, slotFrom_cons, enter_node, slot, hi]; rfl⟩
    | node child =>
      rw [hi] at hm
      obtain ⟨q, hq⟩ := ih hm
      exact ⟨i :: q, by rw [viewFrom, slotFrom_cons, enter_node, slot, hi]; exact hq⟩

/-- Where a number stands below the node, `firstLeafWithin` finds one. -/
theorem firstLeafWithin_ne_none {t : Trie} {bound : Nat} {id : NodeId} {q : List Nat} {m : Nat}
    (hb : t.Within bound id) (hq : t.viewFrom (.node id) q = some (.leaf m)) :
    t.firstLeafWithin bound id ≠ none := by
  induction bound generalizing id q with
  | zero => exact hb.elim
  | succ bound ih =>
    intro hnone
    -- If none is found, then none below the child through which the path goes on.
    have hall := List.findSome?_eq_none_iff.mp hnone
    cases q with
    | nil => simp [viewFrom] at hq
    | cons i q =>
      rw [viewFrom, slotFrom_cons, enter_node] at hq
      have hne : (t.node id).slot i ≠ .empty := by
        intro he
        rw [slot, he, slotFrom_empty] at hq
        cases hq
      have hi := hall _ (Node.slot_mem hne)
      cases hs : (t.node id).slot i with
      | empty => exact hne hs
      | leaf n => rw [hs] at hi; cases hi
      | node child =>
        rw [hs] at hi
        rw [slot, hs] at hq
        exact ih (hb i child hs) hq hi

/-- **The first number below a node**, where there is one. -/
theorem WellLinked.exists_firstLeaf {t : Trie} (h : t.WellLinked) {path : List Nat} {id : NodeId}
    (hid : t.slotAt path = .node id) (hleaf : ∃ q m, t.view (path ++ q) = some (.leaf m)) :
    ∃ m q, t.firstLeaf id = some m ∧ t.view (path ++ q) = some (.leaf m) := by
  obtain ⟨q, m, hq⟩ := hleaf
  rw [view_append, hid] at hq
  cases hf : t.firstLeaf id with
  | none => exact absurd hf (firstLeafWithin_ne_none (h.within_size hid) hq)
  | some n =>
    obtain ⟨q', hq'⟩ := exists_viewFrom_of_firstLeafWithin hf
    exact ⟨n, q', rfl, by rw [view_append, hid, hq']⟩

end Trie

end DecodeTrie
