import DecodeTrie.Proofs.Trie.Path
import Mathlib.Data.Fintype.Card

/-!
# Links between the nodes of a trie

The tries that insertions make are not trees, because the modes of a register column may share a
child. They are close to trees, though: a node is referred to from one position, or from several
modes of one register column of a ModRM table. `WellLinked` states this together with the order in
which kinds of tables follow one another.

From it come the two facts that everything else uses. Two paths to one node are the same, or they
differ in the mode that they take at one shared register column (`eq_or_twins`). And a path is
shorter than the number of nodes (`length_lt_size`), so that every bound in the definitions
which follow references is large enough (`within_root`).
-/

namespace DecodeTrie

/-- The kinds of tables that may stand below a table: an opcode table below an opcode table, and
otherwise a kind of greater code. -/
def NodeKind.Precedes (k l : NodeKind) : Prop := k.code < l.code ∨ k = .opcode ∧ l = .opcode

instance (k l : NodeKind) : Decidable (k.Precedes l) := by
  unfold NodeKind.Precedes; infer_instance

namespace NodeKind

/-- Below anything but an opcode table the codes ascend. -/
theorem Precedes.code_lt {k l : NodeKind} (h : k.Precedes l) (hk : k ≠ .opcode) :
    k.code < l.code := by
  rcases h with h | h
  · exact h
  · exact absurd h.1 hk

theorem Precedes.ne_opcode {k l : NodeKind} (h : k.Precedes l) (hk : k ≠ .opcode) :
    l ≠ .opcode := by
  rintro rfl
  have := h.code_lt hk
  have := k.one_le_code
  simp only [code] at *
  omega

end NodeKind

namespace Trie

/-- Two slots of a node that may share a child: the same slot, or two modes of one register column
of a ModRM table. -/
def Siblings (t : Trie) (x : NodeId) (i j : Nat) : Prop :=
  i = j ∨ t.kind x = .modrm ∧ i % 8 = j % 8

/-- The references among the nodes of a trie are in order. -/
structure WellLinked (t : Trie) : Prop where
  /-- There is a root. -/
  size_pos : 0 < t.size
  /-- The root is an opcode table. -/
  kind_root : t.kind root = .opcode
  /-- References are to nodes of the trie. -/
  lt_size : ∀ {p : Position} {j : NodeId}, t.slot p = .node j → j < t.size
  /-- Nothing refers to the root. -/
  ne_root : ∀ {p : Position} {j : NodeId}, t.slot p = .node j → j ≠ root
  /-- A node is referred to from one position, or from one register column. -/
  unique : ∀ {p q : Position} {j : NodeId}, t.slot p = .node j → t.slot q = .node j →
    p.node = q.node ∧ t.Siblings p.node p.slot q.slot
  /-- Tables follow one another in the order of their kinds. -/
  ordered : ∀ {p : Position} {j : NodeId}, t.slot p = .node j → (t.kind p.node).Precedes (t.kind j)
  /-- Every node is reached from the root. -/
  reached : ∀ {j : NodeId}, j < t.size → ∃ path, t.slotAt path = .node j

theorem wellLinked_empty : empty.WellLinked := by
  have hslot (p : Position) : empty.slot p = .empty := by
    rcases Nat.lt_or_ge p.node 1 with h | h
    · rw [slot, show p.node = 0 from Nat.lt_one_iff.mp h]
      exact Node.slot_new _ _
    · exact slot_of_size_le h
  constructor
  · decide
  · rfl
  · intro p j h; rw [hslot] at h; cases h
  · intro p j h; rw [hslot] at h; cases h
  · intro p q j h; rw [hslot] at h; cases h
  · intro p j h; rw [hslot] at h; cases h
  · intro j h
    rw [size_empty] at h
    exact ⟨[], by rw [slotAt_nil, show j = root from Nat.lt_one_iff.mp h]⟩

namespace WellLinked

variable {t : Trie} (h : t.WellLinked)

include h

/-! ## Nodes at the end of paths -/

/-- A path that ends at a node ends within the trie. -/
theorem lt_size_of_slotAt {path : List Nat} {x : NodeId} (hx : t.slotAt path = .node x) :
    x < t.size := by
  induction path using List.reverseRecOn with
  | nil => cases hx; exact h.size_pos
  | append_singleton q i =>
    rw [slotAt_concat] at hx
    cases hq : t.slotAt q with
    | node y => rw [hq] at hx; exact h.lt_size hx
    | empty => rw [hq] at hx; cases hx
    | leaf n => rw [hq] at hx; cases hx

omit h in
/-- The last reference on a path to a node. -/
theorem exists_parent_of_slotAt {q : List Nat} {i : Nat} {x : NodeId}
    (hx : t.slotAt (q ++ [i]) = .node x) : ∃ y, t.slotAt q = .node y ∧ t.slot ⟨y, i⟩ = .node x := by
  rw [slotAt_concat] at hx
  cases hq : t.slotAt q with
  | node y => rw [hq] at hx; exact ⟨y, rfl, hx⟩
  | empty => rw [hq] at hx; cases hx
  | leaf n => rw [hq] at hx; cases hx

/-- No path but the empty one ends at the root. -/
theorem eq_nil_of_slotAt_root {path : List Nat} (hx : t.slotAt path = .node root) : path = [] := by
  induction path using List.reverseRecOn with
  | nil => rfl
  | append_singleton q i =>
    obtain ⟨y, -, hy⟩ := exists_parent_of_slotAt hx
    exact absurd rfl (h.ne_root hy)

/-- Below a table of another kind than opcode stand tables of greater code. -/
theorem code_lt_of_slotFrom {x y : NodeId} {i : Nat} {path : List Nat}
    (hx : t.kind x ≠ .opcode) (hy : t.slotFrom (.node x) (i :: path) = .node y) :
    (t.kind x).code < (t.kind y).code := by
  induction path generalizing x i with
  | nil => exact (h.ordered (p := ⟨x, i⟩) hy).code_lt hx
  | cons j path ih =>
    rw [slotFrom_cons] at hy
    cases hz : t.enter (.node x) i with
    | node z =>
      have hxz : (t.kind x).Precedes (t.kind z) := h.ordered (p := ⟨x, i⟩) hz
      rw [hz] at hy
      exact (hxz.code_lt hx).trans (ih (hxz.ne_opcode hx) hy)
    | empty => rw [hz, slotFrom_empty] at hy; cases hy
    | leaf n => rw [hz, slotFrom_leaf, if_neg (List.cons_ne_nil _ _)] at hy; cases hy

end WellLinked

/-! ## Twins -/

/-- Two paths that differ in the mode that they take at one register column, where both modes hold
the same thing. -/
def Twins (t : Trie) (p q : List Nat) : Prop :=
  ∃ c x i j r, t.slotAt c = .node x ∧ t.kind x = .modrm ∧ i % 8 = j % 8 ∧
    t.slot ⟨x, i⟩ = t.slot ⟨x, j⟩ ∧ p = c ++ i :: r ∧ q = c ++ j :: r

theorem Twins.length_eq {t : Trie} {p q : List Nat} (h : t.Twins p q) : p.length = q.length := by
  obtain ⟨c, x, i, j, r, -, -, -, -, rfl, rfl⟩ := h
  simp

theorem Twins.concat {t : Trie} {p q : List Nat} (h : t.Twins p q) (i : Nat) :
    t.Twins (p ++ [i]) (q ++ [i]) := by
  obtain ⟨c, x, j, k, r, hc, hx, hm, hs, rfl, rfl⟩ := h
  exact ⟨c, x, j, k, r ++ [i], hc, hx, hm, hs, by simp, by simp⟩

namespace WellLinked

variable {t : Trie} (h : t.WellLinked)

include h

/-- A path to a ModRM table has no twin, for there is no second ModRM table above it. -/
theorem not_twins_of_modrm {p q : List Nat} {x : NodeId} (hp : t.slotAt p = .node x)
    (hx : t.kind x = .modrm) : ¬ t.Twins p q := by
  rintro ⟨c, y, i, j, r, hc, hy, -, -, rfl, -⟩
  rw [slotAt_append, hc] at hp
  have := h.code_lt_of_slotFrom (by rw [hy]; decide) hp
  rw [hx, hy] at this
  exact Nat.lt_irrefl _ this

/-- **Paths to one node** are equal or twins. -/
theorem eq_or_twins {p q : List Nat} {x : NodeId} (hp : t.slotAt p = .node x)
    (hq : t.slotAt q = .node x) : p = q ∨ t.Twins p q := by
  induction p using List.reverseRecOn generalizing q x with
  | nil =>
    cases hp
    exact .inl (h.eq_nil_of_slotAt_root hq).symm
  | append_singleton p i ih =>
    obtain ⟨y, hpy, hyx⟩ := exists_parent_of_slotAt hp
    cases q using List.reverseRecOn with
    | nil =>
      cases hq
      exact absurd rfl (h.ne_root hyx)
    | append_singleton q j =>
      obtain ⟨z, hqz, hzx⟩ := exists_parent_of_slotAt hq
      obtain ⟨hyz, hij⟩ := h.unique hyx hzx
      obtain rfl : y = z := hyz
      rcases hij with hij | ⟨hy, hij⟩
      · -- Both come through one slot, so the question is the same for the parent.
        obtain rfl : i = j := hij
        rcases ih hpy hqz with rfl | ht
        · exact .inl rfl
        · exact .inr (ht.concat i)
      · -- A ModRM table is reached along one path only, so the difference is in its column.
        rcases ih hpy hqz with rfl | ht
        · exact .inr ⟨p, y, i, j, [], hpy, hy, hij, hyx.trans hzx.symm, rfl, rfl⟩
        · exact absurd ht (h.not_twins_of_modrm hpy hy)

/-- A ModRM table is reached along one path. -/
theorem eq_of_slotAt_modrm {p q : List Nat} {x : NodeId} (hp : t.slotAt p = .node x)
    (hq : t.slotAt q = .node x) (hx : t.kind x = .modrm) : p = q :=
  (h.eq_or_twins hp hq).resolve_right (h.not_twins_of_modrm hp hx)

/-- Only one path leads to a position of a ModRM table. -/
theorem leads_modrm_iff {p : Position} {c path : List Nat} (hc : t.slotAt c = .node p.node)
    (hp : t.kind p.node = .modrm) : t.Leads p path ↔ path = c ++ [p.slot] := by
  constructor
  · rintro ⟨q, rfl, hq⟩
    rw [h.eq_of_slotAt_modrm hq hc hp]
  · rintro rfl
    exact ⟨c, rfl, hc⟩

/-- Below a position outside ModRM tables, the paths to the child are those to the position. -/
theorem slotAt_eq_iff_leads {p : Position} {x : NodeId} (hp : t.slot p = .node x)
    (hk : t.kind p.node ≠ .modrm) (path : List Nat) :
    t.slotAt path = .node x ↔ t.Leads p path := by
  constructor
  · intro hx
    cases path using List.reverseRecOn with
    | nil =>
      cases hx
      exact absurd rfl (h.ne_root hp)
    | append_singleton q i =>
      obtain ⟨y, hq, hy⟩ := exists_parent_of_slotAt hx
      obtain ⟨hpy, hi⟩ := h.unique hp hy
      obtain rfl : p.node = y := hpy
      rcases hi with hi | hi
      · exact ⟨q, by rw [← show p.slot = i from hi], hq⟩
      · exact absurd hi.1 hk
  · intro hl
    rw [slotAt_of_leads hl, hp]

/-- Below a cell of a ModRM table, the paths to the child are those to the cells that share it. -/
theorem slotAt_eq_iff_cell {x y : NodeId} {c : List Nat} {i : Nat} (hc : t.slotAt c = .node x)
    (hx : t.kind x = .modrm) (hy : t.slot ⟨x, i⟩ = .node y) (path : List Nat) :
    t.slotAt path = .node y ↔
      ∃ j, j % 8 = i % 8 ∧ t.slot ⟨x, j⟩ = .node y ∧ path = c ++ [j] := by
  constructor
  · intro hp
    cases path using List.reverseRecOn with
    | nil =>
      cases hp
      exact absurd rfl (h.ne_root hy)
    | append_singleton q j =>
      obtain ⟨z, hq, hz⟩ := exists_parent_of_slotAt hp
      obtain ⟨hzx, hj⟩ := h.unique hz hy
      obtain rfl : z = x := hzx
      refine ⟨j, ?_, hz, by rw [h.eq_of_slotAt_modrm hq hc hx]⟩
      rcases hj with hj | hj
      · rw [show j = i from hj]
      · exact hj.2
  · rintro ⟨j, -, hj, rfl⟩
    rw [slotAt_concat, hc, enter_node, hj]

/-! ## Bounds -/

/-- The nodes on a path are different, and so there are as many as tables on it. -/
theorem length_lt_size {path : List Nat} {x : NodeId} (hx : t.slotAt path = .node x) :
    path.length < t.size := by
  have hnode (n : Fin (path.length + 1)) : ∃ y : Fin t.size, t.slotAt (path.take n) = .node y := by
    cases hy : t.slotAt (path.take n) with
    | node y => exact ⟨⟨y, h.lt_size_of_slotAt hy⟩, rfl⟩
    | empty =>
      rw [← List.take_append_drop n path, slotAt_append_of_empty hy] at hx
      cases hx
    | leaf m =>
      rw [← List.take_append_drop n path, slotAt_append, hy, slotFrom_leaf] at hx
      split at hx <;> cases hx
  choose f hf using hnode
  -- Two parts of the path to one node would be twins, which are of the same length.
  have hinj : Function.Injective f := by
    intro m n hmn
    have hlen : (path.take m).length = (path.take n).length := by
      rcases h.eq_or_twins (hf m) (hmn ▸ hf n) with he | ht
      · rw [he]
      · exact ht.length_eq
    rw [List.length_take, List.length_take] at hlen
    omega
  have hcard := Fintype.card_le_of_injective f hinj
  rwa [Fintype.card_fin, Fintype.card_fin] at hcard

end WellLinked

/-- All paths from a node are along at most `bound` nodes. -/
def Within (t : Trie) : Nat → NodeId → Prop
  | 0, _ => False
  | bound + 1, x => ∀ i y, t.slot ⟨x, i⟩ = .node y → t.Within bound y

namespace WellLinked

variable {t : Trie} (h : t.WellLinked)

include h

theorem within_of_slotAt {path : List Nat} {x : NodeId} {bound : Nat}
    (hx : t.slotAt path = .node x) (hb : t.size ≤ bound + path.length) : t.Within bound x := by
  induction bound generalizing path x with
  | zero =>
    have := h.length_lt_size hx
    omega
  | succ bound ih =>
    intro i y hy
    have hpath : t.slotAt (path ++ [i]) = .node y := by rw [slotAt_concat, hx, enter_node, hy]
    refine ih hpath ?_
    rw [List.length_append, List.length_singleton]
    omega

/-- The number of nodes bounds every path from a node that is reached from the root. -/
theorem within_size {path : List Nat} {x : NodeId} (hx : t.slotAt path = .node x) :
    t.Within t.size x :=
  h.within_of_slotAt hx (Nat.le_add_right _ _)

theorem within_root : t.Within t.size root := h.within_size (slotAt_nil t)

end WellLinked

end Trie

end DecodeTrie
