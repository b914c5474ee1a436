import DecodeTrie.Proofs.Trie.Copying
import DecodeTrie.Proofs.Trie.Placing

/-!
# Cells of register columns

The cells of a register column are redirected in two ways: a cell gets a child of its own, a copy
of the one it shared (`detached_detach`), and an empty cell gets what another cell of the column
holds (`shared_set`). Both leave every path outside the cell as it was.
-/

namespace DecodeTrie

theorem Node.set_slot_self (n : Node) (i : Nat) : n.set i (n.slot i) = n := by
  obtain ⟨k, v⟩ := n
  rw [set, slot]
  congr 1
  refine Vector.ext fun j hj ↦ ?_
  rw [Vector.getElem_setIfInBounds]
  split
  · next hij => subst hij; simp [hj]
  · rfl

namespace Trie

/-! ## Cells -/

theorem cell_slot_mod (x : NodeId) (reg : Fin 8) (m : Nat) : (cell x reg m).slot % 8 = reg := by
  have := reg.isLt
  simp only [cell, ModRM.slot]
  omega

theorem cell_slot_lt (x : NodeId) (reg : Fin 8) {m : Nat} (hm : m < 4) :
    (cell x reg m).slot < NodeKind.modrm.slotCount := by
  have := reg.isLt
  simp only [cell, ModRM.slot, NodeKind.slotCount]
  omega

theorem modrm_slot_inj {r s : Fin 8} {m k : Nat} (h : ModRM.slot r m = ModRM.slot s k) :
    r = s ∧ m = k := by
  have := r.isLt
  have := s.isLt
  simp only [ModRM.slot] at h
  omega

theorem cell_injective {x y : NodeId} {r s : Fin 8} {m k : Nat} (h : cell x r m = cell y s k) :
    x = y ∧ r = s ∧ m = k :=
  ⟨congrArg Position.node h, modrm_slot_inj (congrArg Position.slot h)⟩

/-- A slot of a ModRM table is a cell of the column of its register. -/
theorem eq_cell {x : NodeId} {i : Nat} {reg : Fin 8} (h : i % 8 = reg) :
    (⟨x, i⟩ : Position) = cell x reg (i / 8) := by
  rw [cell, ModRM.slot, ← h, Nat.mod_add_div]

/-- Nothing stands below an empty cell. -/
theorem view_cell_of_empty {t : Trie} {x : NodeId} {c : List Nat} (hc : t.slotAt c = .node x)
    {reg : Fin 8} {m : Nat} (he : t.slot (cell x reg m) = .empty) (r : List Nat) :
    t.view (c ++ ModRM.slot reg m :: r) = none := by
  have hempty : t.view (c ++ [ModRM.slot reg m]) = none := by
    rw [view, slotAt_concat, hc]
    exact content_eq_none_iff.mpr he
  simpa using view_append_of_none hempty r

/-! ## Redirecting a cell -/

/-- What writing into a slot of an old node makes of a trie. -/
structure Redirected (t : Trie) (p : Position) (s : Slot) (t' : Trie) : Prop where
  /-- There are no other nodes. -/
  size_eq : t'.size = t.size
  /-- Nodes keep their kinds. -/
  kind_eq : ∀ x, t'.kind x = t.kind x
  /-- One slot is written. -/
  slot_eq : ∀ q, t'.slot q = if q = p then s else t.slot q

theorem redirected_set {t : Trie} {p : Position} (hp : p.node < t.size)
    (hs : p.slot < (t.kind p.node).slotCount) (s : Slot) : Redirected t p s (t.set p s) where
  size_eq := size_set ..
  kind_eq := kind_set t p s
  slot_eq := slot_set hp hs s

namespace Redirected

variable {t t' : Trie} {p : Position} {s : Slot} {c : List Nat} (hr : Redirected t p s t')

include hr

theorem slot_self : t'.slot p = s := by rw [hr.slot_eq, if_pos rfl]

theorem slot_of_ne {q : Position} (hq : q ≠ p) : t'.slot q = t.slot q := by
  rw [hr.slot_eq, if_neg hq]

theorem content_eq (u : Slot) : t'.content u = t.content u := by
  cases u with
  | empty => rfl
  | leaf n => rfl
  | node x => rw [content_node, content_node, hr.kind_eq]

/-- Paths that do not take the cell go where they went. -/
theorem slotAt_eq (hl : ∀ w, t.Leads p w ↔ w = c ++ [p.slot]) {path : List Nat}
    (hpath : ∀ r, path ≠ c ++ p.slot :: r) : t'.slotAt path = t.slotAt path := by
  induction path using List.reverseRecOn with
  | nil => rfl
  | append_singleton w i ih =>
    have hw : t'.slotAt w = t.slotAt w := by
      refine ih fun r hr ↦ hpath (r ++ [i]) ?_
      rw [hr]
      simp
    rw [slotAt_concat, slotAt_concat, hw]
    cases hx : t.slotAt w with
    | empty => rfl
    | leaf n => rfl
    | node x =>
      rw [enter_node, enter_node, hr.slot_of_ne]
      rintro rfl
      exact hpath [] ((hl _).mp ⟨w, rfl, hx⟩)

/-- Paths that take the cell go on from what it holds now. -/
theorem slotAt_append (hc : t.slotAt c = .node p.node)
    (hl : ∀ w, t.Leads p w ↔ w = c ++ [p.slot]) (r : List Nat) :
    t'.slotAt (c ++ p.slot :: r) = t'.slotFrom s r := by
  have hc' : t'.slotAt c = t.slotAt c :=
    hr.slotAt_eq hl fun r hr ↦ by simpa using congrArg List.length hr
  rw [Trie.slotAt_append, hc', hc, slotFrom_cons, enter_node, hr.slot_self]

/-- A path below nodes that the write does not touch goes where it went. -/
theorem slotFrom_eq (P : NodeId → Prop) (hp : ¬ P p.node)
    (hP : ∀ q y, P q.node → t.slot q = .node y → P y) {u : Slot} (hu : ∀ x, u = .node x → P x)
    (path : List Nat) : t'.slotFrom u path = t.slotFrom u path := by
  induction path generalizing u with
  | nil => rfl
  | cons i path ih =>
    cases u with
    | empty => rw [slotFrom_empty, slotFrom_empty]
    | leaf n => rw [slotFrom_leaf, slotFrom_leaf]
    | node x =>
      have hx := hu x rfl
      have henter : t'.slot ⟨x, i⟩ = t.slot ⟨x, i⟩ := by
        refine hr.slot_of_ne ?_
        rintro rfl
        exact hp hx
      rw [slotFrom_cons, slotFrom_cons, enter_node, enter_node, henter]
      exact ih fun y hy ↦ hP ⟨x, i⟩ y hx hy

end Redirected

/-! ## A child of its own -/

/-- What giving a cell a child of its own makes of a trie: everything stands where it stood, and no
other position refers to the child of the cell. -/
structure Detached (t : Trie) (c : List Nat) (p : Position) (t' : Trie) : Prop where
  /-- The references stay in order. -/
  wellLinked : t'.WellLinked
  /-- Everything stands where it stood. -/
  view : ∀ path, t'.view path = t.view path
  /-- Paths that do not take the cell go where they went. -/
  slotAt_eq : ∀ path, (∀ r, path ≠ c ++ p.slot :: r) → t'.slotAt path = t.slotAt path
  /-- Nodes keep their kinds. -/
  kind_eq : ∀ {x : NodeId}, x < t.size → t'.kind x = t.kind x
  /-- Other positions of old nodes keep their contents. -/
  slot_eq : ∀ {q : Position}, q.node < t.size → q ≠ p → t'.slot q = t.slot q
  /-- The child of the cell is its own. -/
  own : ∀ {q : Position} {y : NodeId}, t'.slot p = .node y → t'.slot q = .node y → q = p

section detach

variable {t : Trie} (h : t.WellLinked) {x : NodeId} (hx : t.kind x = .modrm) {c : List Nat}
  (hc : t.slotAt c = .node x) {reg : Fin 8} {m : Nat}

include h hx

/-- A cell that shares its child with no other mode has it for its own. -/
theorem Detached.refl
    (hown : ∀ y, t.slot (cell x reg m) = .node y → t.isShared x reg m y = false) :
    Detached t c (cell x reg m) t where
  wellLinked := h
  view _ := rfl
  slotAt_eq _ _ := rfl
  kind_eq _ := rfl
  slot_eq _ _ := rfl
  own {q y} hp hq := by
    by_contra hne
    obtain ⟨hnode, hsib⟩ := h.unique hp hq
    obtain ⟨z, i⟩ := q
    obtain rfl : x = z := hnode
    have hmod : i % 8 = reg := by
      rcases hsib with hsib | ⟨-, hsib⟩
      · rw [← show (cell x reg m).slot = i from hsib, cell_slot_mod]
      · rw [← show (cell x reg m).slot % 8 = i % 8 from hsib, cell_slot_mod]
    have hlt : i < 32 := by
      have := (lt_of_slot_node hq).2
      rwa [hx] at this
    rw [eq_cell hmod] at hq hne
    have hshared := hown y hp
    rw [isShared, List.any_eq_false] at hshared
    refine hshared (i / 8) (List.mem_range.mpr (by omega)) ?_
    rw [hq, beq_self_eq_true, Bool.and_true, bne_iff_ne]
    intro hi
    exact hne (by rw [hi])

end detach

section copy

variable {t t₁ t' : Trie} (h : t.WellLinked) {p : Position} {id copy : NodeId}
  (hcopy : IsCopy t t₁ id copy) (hr : Redirected t₁ p (.node copy) t')

include hcopy hr

theorem slot_of_redirected_copy {q : Position} (hq : q ≠ p) (hlt : q.node < t.size) :
    t'.slot q = t.slot q := by
  rw [hr.slot_of_ne hq, hcopy.appends.slot_eq hlt]

include h

/-- A reference in a trie with a redirected cell is the new one, or an old one between old nodes, or
one within the copy. -/
theorem reference_of_redirected_copy {q : Position} {j : NodeId} (hj : t'.slot q = .node j) :
    q = p ∧ j = copy ∨ (q ≠ p ∧ q.node < t.size ∧ t.slot q = .node j ∧ j < t.size) ∨
      (t.size ≤ q.node ∧ t₁.slot q = .node j ∧ t.size ≤ j ∧ j < copy) := by
  rw [hr.slot_eq] at hj
  split at hj
  · next hq =>
    cases hj
    exact .inl ⟨hq, rfl⟩
  · next hq =>
    rcases hcopy.old_or_new hj with ⟨hlt, hj'⟩ | hge
    · exact .inr (.inl ⟨hq, hlt, hj', h.lt_size hj'⟩)
    · exact .inr (.inr ⟨hge, hj, (hcopy.inner hge hj).1, hcopy.lt_copy hge hj⟩)

/-- Paths that do not take a redirected cell go where they went, and those that take it go on from
the copy. -/
theorem slotAt_of_redirected_copy {c : List Nat} (hx : t.kind p.node = .modrm)
    (hc : t.slotAt c = .node p.node) :
    (∀ path, (∀ r, path ≠ c ++ p.slot :: r) → t'.slotAt path = t.slotAt path) ∧
      ∀ r, t'.slotAt (c ++ p.slot :: r) = t'.slotFrom (.node copy) r := by
  have hslotAt₁ (path : List Nat) : t₁.slotAt path = t.slotAt path :=
    hcopy.appends.slotFrom_eq h.closed (fun y hy ↦ by cases hy; exact h.size_pos) path
  have hleads (w : List Nat) : t₁.Leads p w ↔ w = c ++ [p.slot] := by
    rw [← h.leads_modrm_iff hc hx, Leads, Leads]
    simp only [hslotAt₁]
  constructor
  · intro path hpath
    rw [hr.slotAt_eq hleads hpath, hslotAt₁]
  · exact hr.slotAt_append (by rw [hslotAt₁, hc]) hleads

omit h in
/-- The nodes of a copy are reached from the cell that is redirected to it. -/
theorem reached_new_of_redirected_copy (hp : p.node < t.size) {c : List Nat}
    (hc : t'.slotAt (c ++ [p.slot]) = .node copy) {j : NodeId} (hge : t.size ≤ j) (hj : j ≤ copy) :
    ∃ path, t'.slotAt path = .node j := by
  -- A new node is referred to from one behind it, and the copy is the last.
  induction hd : copy - j using Nat.strong_induction_on generalizing j with
  | _ d ih =>
    rcases Nat.lt_or_eq_of_le hj with hlt | rfl
    · obtain ⟨q, hqn, hq⟩ := hcopy.referred hge hlt
      have hjq := (hcopy.inner hqn hq).2.1
      have hqs := (lt_of_slot_node hq).1
      rw [hcopy.size_eq] at hqs
      have hqp : q ≠ p := by
        rintro rfl
        exact absurd hp (Nat.not_lt_of_le hqn)
      have hd' : copy - q.node < d := hd ▸ Nat.sub_lt_sub_left hlt hjq
      obtain ⟨w, hw⟩ := ih _ hd' hqn (Nat.le_of_lt_succ hqs) rfl
      exact ⟨w ++ [q.slot], by rw [slotAt_concat, hw, enter_node, hr.slot_of_ne hqp, hq]⟩
    · exact ⟨_, hc⟩

/-- Every node is reached still when a cell that shares its child is redirected to a copy. -/
theorem reached_of_redirected_copy (hp : p.node < t.size) (hid : t.slot p = .node id)
    {p' : Position} (hp' : p' ≠ p) (hid' : t.slot p' = .node id) {j : NodeId} (hj : j < t'.size) :
    ∃ path, t'.slotAt path = .node j := by
  obtain ⟨hnode, hsib⟩ := h.unique hid hid'
  have hslot : p.slot ≠ p'.slot := by
    intro hs
    obtain ⟨x, i⟩ := p
    obtain ⟨x', i'⟩ := p'
    exact hp' ((Position.mk.injEq ..).mpr ⟨hnode.symm, hs.symm⟩)
  have hx : t.kind p.node = .modrm := (hsib.resolve_left hslot).1
  obtain ⟨c, hc⟩ := h.reached hp
  obtain ⟨hother, hthrough⟩ := slotAt_of_redirected_copy h hcopy hr hx hc
  rw [hr.size_eq, hcopy.size_eq] at hj
  rcases Nat.lt_or_ge j t.size with hlt | hge
  · obtain ⟨w, hw⟩ := h.reached hlt
    by_cases hwp : ∃ r, w = c ++ p.slot :: r
    · -- What was below the cell is still below the cell that it shared its child with.
      obtain ⟨r, rfl⟩ := hwp
      refine ⟨c ++ p'.slot :: r, ?_⟩
      rw [hother _ fun r' hr' ↦ hslot (List.cons.inj (List.append_cancel_left hr')).1.symm]
      rw [slotAt_append, hc, slotFrom_cons, enter_node] at hw ⊢
      rw [show (⟨p.node, p'.slot⟩ : Position) = p' by rw [hnode], hid', ← hid]
      exact hw
    · exact ⟨w, by rw [hother w fun r hr ↦ hwp ⟨r, hr⟩, hw]⟩
  · exact reached_new_of_redirected_copy hcopy hr hp (hthrough []) hge (Nat.le_of_lt_succ hj)

/-- The references stay in order when a cell that shares its child is redirected to a copy. -/
theorem WellLinked.redirected_copy (hp : p.node < t.size) (hid : t.slot p = .node id)
    {p' : Position} (hp' : p' ≠ p) (hid' : t.slot p' = .node id) : t'.WellLinked where
  size_pos := by
    rw [hr.size_eq]
    exact Nat.lt_of_lt_of_le h.size_pos hcopy.appends.size_le
  kind_root := by rw [hr.kind_eq, hcopy.appends.kind_eq (x := root) h.size_pos, h.kind_root]
  lt_size {q j} hj := by
    rw [hr.size_eq, hcopy.size_eq]
    rcases reference_of_redirected_copy h hcopy hr hj with
      ⟨-, rfl⟩ | ⟨-, -, -, hjt⟩ | ⟨-, -, -, hjc⟩
    · exact Nat.lt_succ_self _
    · exact Nat.lt_succ_of_lt (Nat.lt_of_lt_of_le hjt hcopy.size_le)
    · exact Nat.lt_succ_of_lt hjc
  ne_root {q j} hj := by
    rcases reference_of_redirected_copy h hcopy hr hj with
      ⟨-, rfl⟩ | ⟨-, -, hj', -⟩ | ⟨-, -, hge, -⟩
    · exact Nat.ne_of_gt (Nat.lt_of_lt_of_le h.size_pos hcopy.size_le)
    · exact h.ne_root hj'
    · exact Nat.ne_of_gt (Nat.lt_of_lt_of_le h.size_pos hge)
  unique {q r j} hq hr' := by
    -- Two references to one node are of the same sort, for the three sorts go to different nodes.
    rcases reference_of_redirected_copy h hcopy hr hq with
      ⟨rfl, rfl⟩ | ⟨-, hqn, hq', hqj⟩ | ⟨hqn, hq', hqj, hqc⟩ <;>
    rcases reference_of_redirected_copy h hcopy hr hr' with
      ⟨rfl, hrj⟩ | ⟨-, -, hr', hrj⟩ | ⟨hrn, hr', hrj, hrc⟩
    · exact ⟨rfl, .inl rfl⟩
    · exact absurd hcopy.size_le (Nat.not_le_of_lt hrj)
    · exact absurd hrc (Nat.lt_irrefl _)
    · exact absurd hcopy.size_le (Nat.not_le_of_lt (hrj ▸ hqj))
    · obtain ⟨hnode, hsib⟩ := h.unique hq' hr'
      refine ⟨hnode, hsib.imp_right fun hs ↦ ?_⟩
      rwa [hr.kind_eq, hcopy.appends.kind_eq hqn]
    · exact absurd hrj (Nat.not_le_of_lt hqj)
    · exact absurd hqc (by rw [hrj]; exact Nat.lt_irrefl _)
    · exact absurd hqj (Nat.not_le_of_lt hrj)
    · obtain rfl := hcopy.unique hqn hrn hq' hr'
      exact ⟨rfl, .inl rfl⟩
  ordered {q j} hj := by
    rw [hr.kind_eq, hr.kind_eq]
    rcases reference_of_redirected_copy h hcopy hr hj with
      ⟨rfl, rfl⟩ | ⟨-, hqn, hj', hjt⟩ | ⟨hqn, hj', -, -⟩
    · rw [hcopy.kind_eq, hcopy.appends.kind_eq hp]
      exact h.ordered hid
    · rw [hcopy.appends.kind_eq hqn, hcopy.appends.kind_eq hjt]
      exact h.ordered hj'
    · exact (hcopy.inner hqn hj').2.2
  reached hj := reached_of_redirected_copy h hcopy hr hp hid hp' hid' hj

end copy

section detach

variable {t : Trie} (h : t.WellLinked) {x : NodeId} (hx : t.kind x = .modrm) {c : List Nat}
  (hc : t.slotAt c = .node x) {reg : Fin 8} {m : Nat}

include h hx hc

/-- A cell that shares its child gets a copy. -/
theorem Detached.copy (hm : m < 4) {id k : NodeId} {t₁ : Trie}
    (hid : t.slot (cell x reg m) = .node id) (hk : k ≠ m)
    (hk' : t.slot (cell x reg k) = .node id) {copy : NodeId} (hcopy : IsCopy t t₁ id copy) :
    Detached t c (cell x reg m) (t₁.set (cell x reg m) (.node copy)) := by
  have hxs : x < t.size := h.lt_size_of_slotAt hc
  have happ := hcopy.appends
  have hr := redirected_set (t := t₁) (p := cell x reg m) (Nat.lt_of_lt_of_le hxs happ.size_le)
    (by rw [show (cell x reg m).node = x from rfl, happ.kind_eq hxs, hx]
        exact cell_slot_lt x reg hm) (.node copy)
  generalize t₁.set (cell x reg m) (.node copy) = t' at hr ⊢
  obtain ⟨hslotAt, hthrough⟩ := slotAt_of_redirected_copy h hcopy hr (p := cell x reg m) hx hc
  refine ⟨?_, fun path ↦ ?_, hslotAt, ?_, ?_, ?_⟩
  · exact h.redirected_copy hcopy hr hxs hid (fun he ↦ hk (cell_injective he).2.2) hk'
  · by_cases hpath : ∃ r, path = c ++ (cell x reg m).slot :: r
    · -- The path takes the cell, and goes on in the copy as it did in the original.
      obtain ⟨r, rfl⟩ := hpath
      have hfrom := hr.slotFrom_eq (fun y ↦ t.size ≤ y) (Nat.not_le_of_lt hxs)
        (fun q y hq hy ↦ (hcopy.inner hq hy).1) (u := .node copy)
        (fun y hy ↦ by cases hy; exact hcopy.size_le) r
      have hbelow :
          t.slotFrom (t.slotAt c) ((cell x reg m).slot :: r) = t.slotFrom (.node id) r := by
        rw [hc, slotFrom_cons, enter_node, ← hid]
        rfl
      rw [Trie.view, hthrough, hfrom, hr.content_eq, view_append, viewFrom, hbelow]
      exact hcopy.view r
    · have hne : ∀ r, path ≠ c ++ (cell x reg m).slot :: r := fun r hr ↦ hpath ⟨r, hr⟩
      rw [Trie.view, hslotAt path hne, hr.content_eq, Trie.view]
      cases hy : t.slotAt path with
      | node y => rw [content_node, content_node, happ.kind_eq (h.lt_size_of_slotAt hy)]
      | empty => rfl
      | leaf n => rfl
  · intro y hy
    rw [hr.kind_eq, happ.kind_eq hy]
  · intro q hqn hq
    exact slot_of_redirected_copy hcopy hr hq hqn
  · intro q y hp hq
    rw [hr.slot_self] at hp
    cases hp
    rcases reference_of_redirected_copy h hcopy hr hq with
      ⟨hq', -⟩ | ⟨-, -, -, hjt⟩ | ⟨-, -, -, hjc⟩
    · exact hq'
    · exact absurd hcopy.size_le (Nat.not_le_of_lt hjt)
    · exact absurd hjc (Nat.lt_irrefl _)

/-- **Giving a cell a child of its own.** -/
theorem detached_detach (hm : m < 4) : Detached t c (cell x reg m) (t.detach x reg m) := by
  rw [detach]
  split
  · next id hid =>
    split
    · next hshared =>
      rw [isShared, List.any_eq_true] at hshared
      obtain ⟨k, -, hk⟩ := hshared
      rw [Bool.and_eq_true, bne_iff_ne, beq_iff_eq] at hk
      have hpath : t.slotAt (c ++ [(cell x reg m).slot]) = .node id := by
        rw [slotAt_concat, hc]
        exact hid
      exact Detached.copy h hx hc hm hid hk.1 hk.2 (h.isCopy_copySubtree hpath)
    · next hshared =>
      refine Detached.refl h hx fun y hy ↦ ?_
      rw [hid] at hy
      cases hy
      exact Bool.eq_false_iff.mpr hshared
  · next hno => exact Detached.refl h hx fun y hy ↦ absurd hy (hno y)

end detach

/-! ## What another cell holds -/

/-- Tries with the same nodes are equal. -/
theorem ext_node {t t' : Trie} (hs : t.size = t'.size) (hn : ∀ id, t.node id = t'.node id) :
    t = t' := by
  obtain ⟨a⟩ := t
  obtain ⟨a'⟩ := t'
  congr 1
  refine Array.ext hs fun i hi hi' ↦ ?_
  simpa [node, hi, hi'] using hn i

/-- Writing back what a slot holds changes nothing. -/
theorem set_slot_self (t : Trie) (p : Position) : t.set p (t.slot p) = t := by
  have hnode (id : NodeId) : (t.set p (t.slot p)).node id = t.node id := by
    rw [node_set]
    split
    · next h =>
      obtain ⟨rfl, -⟩ := h
      rw [slot, Node.set_slot_self]
    · rfl
  exact ext_node (size_set ..) hnode

/-- What writing the contents of a cell into an empty cell of its column makes of a trie. -/
structure Shared (t : Trie) (c : List Nat) (p q : Position) (t' : Trie) : Prop where
  /-- The references stay in order. -/
  wellLinked : t'.WellLinked
  /-- What stands at the cell and below it is what stands at the other cell and below that one. -/
  view : ∀ path v, t'.view path = some v ↔
    t.view path = some v ∨ ∃ r, path = c ++ p.slot :: r ∧ t.view (c ++ q.slot :: r) = some v
  /-- There are no other nodes. -/
  size_eq : t'.size = t.size
  /-- Nodes keep their kinds. -/
  kind_eq : ∀ x, t'.kind x = t.kind x
  /-- One slot is written. -/
  slot_eq : ∀ r, t'.slot r = if r = p then t.slot q else t.slot r

section share

variable {t t' : Trie} (h : t.WellLinked) {x : NodeId} (hx : t.kind x = .modrm) {reg : Fin 8}
  {m k : Nat} (hr : Redirected t (cell x reg m) (t.slot (cell x reg k)) t')

include hr

/-- Every reference was there already, at a cell of the same column at worst. -/
theorem reference_of_shared {q : Position} {j : NodeId} (hj : t'.slot q = .node j) :
    ∃ q', t.slot q' = .node j ∧ q'.node = q.node ∧
      (q = q' ∨ q = cell x reg m ∧ q' = cell x reg k) := by
  rw [hr.slot_eq] at hj
  split at hj
  · next hq => exact ⟨cell x reg k, hj, by rw [hq]; rfl, .inr ⟨hq, rfl⟩⟩
  · exact ⟨q, hj, rfl, .inl rfl⟩

include h hx

/-- The references stay in order when an empty cell gets what another cell of its column holds. -/
theorem WellLinked.shared (he : t.slot (cell x reg m) = .empty) : t'.WellLinked where
  size_pos := by rw [hr.size_eq]; exact h.size_pos
  kind_root := by rw [hr.kind_eq, h.kind_root]
  lt_size {q j} hj := by
    obtain ⟨q', hq', -, -⟩ := reference_of_shared hr hj
    rw [hr.size_eq]
    exact h.lt_size hq'
  ne_root {q j} hj := by
    obtain ⟨q', hq', -, -⟩ := reference_of_shared hr hj
    exact h.ne_root hq'
  unique {q r j} hq hr' := by
    obtain ⟨q', hq', hqn, hqs⟩ := reference_of_shared hr hq
    obtain ⟨r', hr', hrn, hrs⟩ := reference_of_shared hr hr'
    obtain ⟨hnode, hsib⟩ := h.unique hq' hr'
    have hsame : q.node = r.node := hqn.symm.trans (hnode.trans hrn)
    refine ⟨hsame, ?_⟩
    have hmod {q q' : Position} (hq : q = q' ∨ q = cell x reg m ∧ q' = cell x reg k) :
        q.slot % 8 = q'.slot % 8 := by
      rcases hq with rfl | ⟨rfl, rfl⟩
      · rfl
      · rw [cell_slot_mod, cell_slot_mod]
    -- The slots are those of the old reference, or at least one of them is in the column.
    rw [Siblings, hr.kind_eq]
    by_cases hrest : q = q' ∧ r = r'
    · obtain ⟨rfl, rfl⟩ := hrest
      exact hsib
    · have hqx : t.kind q.node = .modrm := by
        rcases hqs with rfl | ⟨rfl, -⟩
        · rcases hrs with rfl | ⟨rfl, -⟩
          · exact absurd ⟨rfl, rfl⟩ hrest
          · rw [hsame]; exact hx
        · exact hx
      refine .inr ⟨hqx, ?_⟩
      rw [hmod hqs, hmod hrs]
      rcases hsib with hsib | ⟨-, hsib⟩
      · rw [hsib]
      · exact hsib
  ordered {q j} hj := by
    obtain ⟨q', hq', hqn, -⟩ := reference_of_shared hr hj
    rw [hr.kind_eq, hr.kind_eq, ← hqn]
    exact h.ordered hq'
  reached {j} hj := by
    rw [hr.size_eq] at hj
    obtain ⟨q, hq⟩ := h.reached hj
    refine ⟨q, slotAt_node_of_slots (fun p hp ↦ hr.slot_of_ne ?_) hq⟩
    rintro rfl
    exact hp he

/-- Below a ModRM table nothing changes when one of its cells is written. -/
theorem slotFrom_of_shared {u : Slot}
    (hu : ∀ y, u = .node y → NodeKind.modrm.code < (t.kind y).code) (path : List Nat) :
    t'.slotFrom u path = t.slotFrom u path := by
  refine hr.slotFrom_eq (fun y ↦ NodeKind.modrm.code < (t.kind y).code) ?_ (fun q y hq hy ↦ ?_) hu
    path
  · rw [show (cell x reg m).node = x from rfl, hx]
    exact Nat.lt_irrefl _
  · refine hq.trans ((h.ordered hy).code_lt ?_)
    intro hop
    rw [hop] at hq
    exact absurd hq (by decide)

end share

/-- **Sharing the contents of a cell.** -/
theorem shared_set {t : Trie} (h : t.WellLinked) {x : NodeId} (hx : t.kind x = .modrm)
    {c : List Nat} (hc : t.slotAt c = .node x) {reg : Fin 8} {m k : Nat} (hm : m < 4)
    (he : t.slot (cell x reg m) = .empty) :
    Shared t c (cell x reg m) (cell x reg k)
      (t.set (cell x reg m) (t.slot (cell x reg k))) := by
  have hlt : (cell x reg m).slot < (t.kind (cell x reg m).node).slotCount := by
    rw [show (cell x reg m).node = x from rfl, hx]
    exact cell_slot_lt x reg hm
  have hr := redirected_set (p := cell x reg m) (h.lt_size_of_slotAt hc) hlt (t.slot (cell x reg k))
  generalize t.set (cell x reg m) (t.slot (cell x reg k)) = t' at hr ⊢
  have hleads (w : List Nat) : t.Leads (cell x reg m) w ↔ w = c ++ [(cell x reg m).slot] :=
    h.leads_modrm_iff hc hx
  refine ⟨h.shared hx hr he, fun path v ↦ ?_, hr.size_eq, hr.kind_eq, hr.slot_eq⟩
  by_cases hpath : ∃ r, path = c ++ (cell x reg m).slot :: r
  · -- Nothing stood there, and now the path goes on below the other cell.
    obtain ⟨r, rfl⟩ := hpath
    have hnone : t.view (c ++ (cell x reg m).slot :: r) = none := view_cell_of_empty hc he r
    have hbelow := slotFrom_of_shared h hx hr (u := t.slot (cell x reg k))
      (fun y hy ↦ by
        have hlt := (h.ordered hy).code_lt
          (by rw [show (cell x reg k).node = x from rfl, hx]; decide)
        rwa [show (cell x reg k).node = x from rfl, hx] at hlt) r
    have hview : t'.view (c ++ (cell x reg m).slot :: r) =
        t.view (c ++ (cell x reg k).slot :: r) := by
      rw [Trie.view, hr.slotAt_append (by rw [hc]; rfl) hleads, hr.content_eq, hbelow, Trie.view,
        Trie.slotAt_append, hc]
      rfl
    rw [hview, hnone]
    simp
  · have hne : ∀ r, path ≠ c ++ (cell x reg m).slot :: r := fun r hr ↦ hpath ⟨r, hr⟩
    rw [Trie.view, hr.slotAt_eq hleads hne, hr.content_eq, ← Trie.view]
    refine ⟨.inl, fun hv ↦ hv.elim (fun hv ↦ hv) ?_⟩
    rintro ⟨r, hr, -⟩
    exact absurd hr (hne r)

end Trie

end DecodeTrie
