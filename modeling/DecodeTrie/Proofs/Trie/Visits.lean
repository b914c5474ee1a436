import DecodeTrie.Proofs.Trie.Walks
import Mathlib.Logic.Relation

/-!
# The nodes that walks visit

What a key reads depends on the nodes that it visits only (`reads_iff_of_visits`), and on what stands
below the node where it starts only, wherever that is in the trie (`reads_iff_of_view`).

A part of a trie can be entered at its topmost node only (`EnteredAt`). Then a key that starts
outside this part and does not visit its topmost node visits none of its nodes, so that writing into
one of them does not change what the key reads (`EnteredAt.reads_set_iff`).
-/

namespace DecodeTrie.Trie

/-! ## Visits -/

/-- A key that starts at one node comes to another one. -/
inductive Visits (t : Trie) : NodeId → Key → NodeId → Prop
  /-- The node at which it starts. -/
  | here (x : NodeId) (k : Key) : Visits t x k x
  /-- The nodes that are visited from the next one on. -/
  | next {x y z : NodeId} {k k' : Key} {i : Nat} (h : k.choose (t.kind x) = some (i, k'))
    (hs : t.slot ⟨x, i⟩ = .node y) (hrest : Visits t y k' z) : Visits t x k z

section

variable {t t' : Trie} {x x' : NodeId} {k : Key} {r : Option Nat}

theorem kind_eq_of_node (h : t'.node x = t.node x) : t'.kind x = t.kind x := by
  rw [kind, h, kind]

theorem slot_eq_of_node (h : t'.node x = t.node x) (i : Nat) :
    t'.slot ⟨x, i⟩ = t.slot ⟨x, i⟩ := by
  rw [slot, h, slot]

/-- A key that comes to another node comes there from the node that the chosen slot refers to. -/
theorem Visits.tail {y z : NodeId} {k' : Key} {i : Nat} (h : t.Visits x k z) (hne : z ≠ x)
    (hk : k.choose (t.kind x) = some (i, k')) (hs : t.slot ⟨x, i⟩ = .node y) :
    t.Visits y k' z := by
  cases h with
  | here => exact absurd rfl hne
  | next hk' hs' hrest =>
    rw [hk] at hk'
    cases hk'
    rw [hs] at hs'
    cases hs'
    exact hrest

/-- A key visits the same nodes as long as they are the same. -/
theorem Visits.of_same {y : NodeId} (h : t'.Visits x k y)
    (hsame : ∀ y, t.Visits x k y → t'.node y = t.node y) : t.Visits x k y := by
  induction h with
  | here x k => exact .here x k
  | @next x y z k k' i hk hs _ ih =>
    have hx : t'.node x = t.node x := hsame x (.here x k)
    rw [kind_eq_of_node hx] at hk
    rw [slot_eq_of_node hx] at hs
    exact .next hk hs (ih fun z hz ↦ hsame z (.next hk hs hz))

/-- What a key reads stays the same when the nodes that it visits do. -/
theorem Reads.of_visits (h : t.Reads x k r) (hsame : ∀ y, t.Visits x k y → t'.node y = t.node y) :
    t'.Reads x k r := by
  induction h with
  | @lacking x k hk =>
    have hx : t'.node x = t.node x := hsame x (.here x k)
    exact .lacking (by rwa [kind_eq_of_node hx])
  | @empty x k k' i hk hs =>
    have hx : t'.node x = t.node x := hsame x (.here x k)
    exact .empty (by rwa [kind_eq_of_node hx]) (by rwa [slot_eq_of_node hx])
  | @leaf x k k' i n hk hs =>
    have hx : t'.node x = t.node x := hsame x (.here x k)
    exact .leaf (by rwa [kind_eq_of_node hx]) (by rwa [slot_eq_of_node hx])
  | @node x y k k' i r hk hs _ ih =>
    have hx : t'.node x = t.node x := hsame x (.here x k)
    exact .node (by rwa [kind_eq_of_node hx]) (by rwa [slot_eq_of_node hx])
      (ih fun z hz ↦ hsame z (.next hk hs hz))

/-- **Only the nodes that it visits** matter for what a key reads. -/
theorem reads_iff_of_visits (hsame : ∀ y, t.Visits x k y → t'.node y = t.node y) :
    t'.Reads x k r ↔ t.Reads x k r :=
  ⟨fun h ↦ h.of_visits fun _ hy ↦ (hsame _ (hy.of_same hsame)).symm, fun h ↦ h.of_visits hsame⟩

/-- What a key reads below one node it reads below another one, where the same stands. -/
theorem Reads.of_view (h : t.Reads x k r)
    (hview : ∀ path, t'.viewFrom (.node x') path = t.viewFrom (.node x) path) :
    t'.Reads x' k r := by
  have hkind {x x' : NodeId}
      (hview : ∀ path, t'.viewFrom (.node x') path = t.viewFrom (.node x) path) :
      t'.kind x' = t.kind x := by
    simpa [viewFrom] using hview []
  have hcontent {x x' : NodeId} (i : Nat)
      (hview : ∀ path, t'.viewFrom (.node x') path = t.viewFrom (.node x) path) :
      t'.content (t'.slot ⟨x', i⟩) = t.content (t.slot ⟨x, i⟩) := hview [i]
  induction h generalizing x' with
  | lacking hk => exact .lacking (by rwa [hkind hview])
  | @empty x k k' i hk hs =>
    have hs' := hcontent i hview
    rw [hs, content_empty, content_eq_none_iff] at hs'
    exact .empty (by rwa [hkind hview]) hs'
  | @leaf x k k' i n hk hs =>
    have hs' := hcontent i hview
    rw [hs, content_leaf, content_eq_leaf_iff] at hs'
    exact .leaf (by rwa [hkind hview]) hs'
  | @node x y k k' i r hk hs _ ih =>
    have hs' := hcontent i hview
    rw [hs, content_node, content_eq_table_iff] at hs'
    obtain ⟨y', hy', -⟩ := hs'
    refine .node (by rwa [hkind hview]) hy' (ih fun path ↦ ?_)
    have hpath := hview (i :: path)
    rwa [viewFrom, slotFrom_cons, enter_node, hy', viewFrom, slotFrom_cons, enter_node, hs] at hpath

/-- **What stands below a node** is all that matters for what a key reads there. -/
theorem reads_iff_of_view
    (hview : ∀ path, t'.viewFrom (.node x') path = t.viewFrom (.node x) path) :
    t'.Reads x' k r ↔ t.Reads x k r :=
  ⟨fun h ↦ h.of_view fun path ↦ (hview path).symm, fun h ↦ h.of_view hview⟩

end

/-! ## Nodes below a node -/

/-- A slot of one node refers to another one. -/
def Refers (t : Trie) (x y : NodeId) : Prop := ∃ i, t.slot ⟨x, i⟩ = .node y

/-- A node is reached from another one, or is that node. -/
def Below (t : Trie) : NodeId → NodeId → Prop := Relation.ReflTransGen t.Refers

theorem Below.refl (t : Trie) (x : NodeId) : t.Below x x := Relation.ReflTransGen.refl

theorem Below.slot {t : Trie} {x : NodeId} {p : Position} {y : NodeId} (h : t.Below x p.node)
    (hp : t.slot p = .node y) : t.Below x y :=
  Relation.ReflTransGen.tail h ⟨p.slot, hp⟩

/-- What holds of a node, and of what its slots refer to along with it, holds of all that is below
the node. -/
theorem Below.induction {t : Trie} {P : NodeId → Prop}
    (h : ∀ p y, P p.node → t.slot p = .node y → P y) {x y : NodeId} (hy : t.Below x y) (hx : P x) :
    P y := by
  induction hy with
  | refl => exact hx
  | @tail y z _ hz ih =>
    obtain ⟨i, hi⟩ := hz
    exact h ⟨y, i⟩ z ih hi

/-- What is below a node does not depend on the slots of the other nodes. -/
theorem below_congr {t t' : Trie} {top : NodeId}
    (h : ∀ p, t.Below top p.node → t'.slot p = t.slot p) (y : NodeId) :
    t'.Below top y ↔ t.Below top y :=
  ⟨fun hy ↦ hy.induction (fun p _ hp hs ↦ hp.slot (by rwa [← h p hp])) (.refl t top),
    fun hy ↦ (hy.induction (P := fun y ↦ t.Below top y ∧ t'.Below top y)
      (fun p _ hp hs ↦ ⟨hp.1.slot hs, hp.2.slot (by rwa [h p hp.1])⟩)
      ⟨.refl t top, .refl t' top⟩).2⟩

/-! ## Entered at the top -/

/-- What is below a node is referred to from there only; the node itself may be referred to from
elsewhere. -/
def EnteredAt (t : Trie) (top : NodeId) : Prop :=
  ∀ ⦃p : Position⦄ ⦃j : NodeId⦄, t.slot p = .node j → t.Below top j → ¬ t.Below top p.node → j = top

namespace EnteredAt

variable {t : Trie} {top x : NodeId} {k : Key} (h : t.EnteredAt top)

include h

/-- A key that starts elsewhere and does not come to the topmost node comes to no node below it. -/
theorem not_below_of_visits (hx : ¬ t.Below top x) (htop : ¬ t.Visits x k top) {y : NodeId}
    (hy : t.Visits x k y) : ¬ t.Below top y := by
  induction hy with
  | here x k => exact hx
  | @next x y z k k' i hk hs _ ih =>
    refine ih (fun hy ↦ htop ?_) fun hvisits ↦ htop (.next hk hs hvisits)
    obtain rfl : y = top := h hs hy hx
    exact .next hk hs (.here y k')

/-- **The frame of a write.** Writing below the topmost node changes nothing for a key that starts
elsewhere and does not come to that node. -/
theorem reads_set_iff {p : Position} (hp : t.Below top p.node) (s : Slot) (hx : ¬ t.Below top x)
    (htop : ¬ t.Visits x k top) (r : Option Nat) : (t.set p s).Reads x k r ↔ t.Reads x k r := by
  refine reads_iff_of_visits fun y hy ↦ ?_
  rw [node_set, if_neg]
  rintro ⟨rfl, -⟩
  exact h.not_below_of_visits hx htop hy hp

end EnteredAt

end DecodeTrie.Trie
