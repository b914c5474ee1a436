import DecodeTrie.Proofs.Table.Layouts
import DecodeTrie.Proofs.Table.Words
import DecodeTrie.Table.Lookup
import DecodeTrie.Trie.Walk

/-!
# Looking up is walking

A key decodes to the same number in a trie, in the trie with its ModRM tables collapsed, and in the
words of the flat table (`lookup_flatten`). Every reference among the words goes to a lesser offset,
so that the bound of a look-up is large enough.
-/

namespace DecodeTrie

/-! ## Collapsed nodes -/

namespace Node

theorem slot_toRegOnly (n : Node) (i : Nat) :
    n.toRegOnly.slot i = if i < 8 then n.slot i else .empty := by
  change ((Vector.ofFn fun r : Fin 8 ↦ n.slot r)[i]?).getD .empty = _
  split
  · next hi => simp [hi]
  · next hi => simp [Vector.getElem?_eq_none (Nat.le_of_not_lt hi)]

theorem ignoresMode_iff {n : Node} :
    n.ignoresMode = true ↔ n.kind = .modrm ∧
      ∀ (r : Fin 8) (m : Fin 4), n.slot (ModRM.slot r m) = n.slot r := by
  rw [ignoresMode, Bool.and_eq_true, beq_iff_eq, List.all_eq_true]
  refine and_congr_right fun _ ↦ ?_
  simp only [List.mem_range, List.all_cons, List.all_nil, Bool.and_true, Bool.and_eq_true,
    beq_iff_eq]
  constructor
  · intro h r m
    obtain ⟨h1, h2, h3⟩ := h r r.isLt
    match m with
    | 0 => rfl
    | 1 => exact h1
    | 2 => exact h2
    | 3 => exact h3
  · intro h r hr
    exact ⟨h ⟨r, hr⟩ 1, h ⟨r, hr⟩ 2, h ⟨r, hr⟩ 3⟩

theorem collapse_of_ignoresMode {n : Node} (h : n.ignoresMode = true) :
    n.collapse = n.toRegOnly := by
  rw [collapse, if_pos h]

theorem collapse_of_not_ignoresMode {n : Node} (h : ¬ n.ignoresMode = true) : n.collapse = n := by
  rw [collapse, if_neg h]

/-- Collapsing a node adds nothing to it. -/
theorem slot_of_slot_collapse {n : Node} {i : Nat} {s : Slot} (h : n.collapse.slot i = s)
    (hs : s ≠ .empty) : n.slot i = s := by
  rw [collapse] at h
  split at h
  · rw [slot_toRegOnly] at h
    split at h
    · exact h
    · exact absurd h.symm hs
  · exact h

/-- A key finds the same in a node and in the collapsed one. -/
theorem choose_collapse (n : Node) (k : Key) :
    (k.choose n.collapse.kind).map (fun c ↦ (n.collapse.slot c.1, c.2)) =
      (k.choose n.kind).map fun c ↦ (n.slot c.1, c.2) := by
  by_cases h : n.ignoresMode = true
  · obtain ⟨hkind, hslot⟩ := ignoresMode_iff.mp h
    rw [collapse_of_ignoresMode h, show n.toRegOnly.kind = .regOnly from rfl, hkind, Key.choose,
      Key.choose, Option.map_map, Option.map_map]
    refine Option.map_congr fun b _ ↦ ?_
    simp only [Function.comp, slot_toRegOnly, if_pos (ModRM.reg b).isLt, hslot]
  · rw [collapse_of_not_ignoresMode h]

end Node

namespace Trie

/-! ## Collapsed tries -/

theorem node_collapse (t : Trie) (x : NodeId) : t.collapse.node x = (t.node x).collapse := by
  rw [node, node, collapse, List.getElem?_toArray, List.getElem?_map, Array.getElem?_toList]
  cases t.nodes[x]? with
  | none => rfl
  | some n => rfl

@[simp] theorem size_collapse (t : Trie) : t.collapse.size = t.size := by
  simp [size, collapse]

theorem slot_of_slot_collapse {t : Trie} {p : Position} {s : Slot} (h : t.collapse.slot p = s)
    (hs : s ≠ .empty) : t.slot p = s := by
  rw [slot, node_collapse] at h
  exact Node.slot_of_slot_collapse h hs

theorem slotAt_of_slotAt_collapse {t : Trie} {path : List Nat} {s : Slot}
    (h : t.collapse.slotAt path = s) (hs : s ≠ .empty) : t.slotAt path = s := by
  induction path using List.reverseRecOn generalizing s with
  | nil => exact h
  | append_singleton q i ih =>
    rw [slotAt_concat] at h ⊢
    cases hq : t.collapse.slotAt q with
    | empty => rw [hq] at h; exact absurd h.symm hs
    | leaf n => rw [hq] at h; exact absurd h.symm hs
    | node x =>
      rw [hq] at h
      rw [ih hq Slot.noConfusion, enter_node]
      exact slot_of_slot_collapse h hs

theorem Closed.collapse {t : Trie} (h : t.Closed) : t.collapse.Closed := by
  intro p j hj
  rw [size_collapse]
  exact h (slot_of_slot_collapse hj Slot.noConfusion)

theorem Within.collapse {t : Trie} {bound : Nat} {x : NodeId} (h : t.Within bound x) :
    t.collapse.Within bound x := by
  induction bound generalizing x with
  | zero => exact h
  | succ bound ih => exact fun i y hy ↦ ih (h i y (slot_of_slot_collapse hy Slot.noConfusion))

/-- One step of a walk. -/
theorem walkWithin_succ (t : Trie) (bound : Nat) (x : NodeId) (k : Key) :
    t.walkWithin (bound + 1) x k =
      ((k.choose (t.kind x)).map fun c ↦ ((t.node x).slot c.1, c.2)).bind fun c ↦
        match c.1 with
        | .empty => none
        | .leaf n => some n
        | .node child => t.walkWithin bound child c.2 := by
  rw [walkWithin]
  cases k.choose (t.kind x) <;> rfl

/-- **Collapsing changes no walk.** -/
theorem walkWithin_collapse (t : Trie) (bound : Nat) (x : NodeId) (k : Key) :
    t.collapse.walkWithin bound x k = t.walkWithin bound x k := by
  induction bound generalizing x k with
  | zero => rfl
  | succ bound ih =>
    rw [walkWithin_succ, walkWithin_succ, kind, kind, node_collapse, Node.choose_collapse]
    simp only [ih]

theorem walk_collapse (t : Trie) (k : Key) : t.collapse.walk k = t.walk k := by
  rw [walk, walk, size_collapse, walkWithin_collapse]

/-! ## Flat tables -/

/-- The numbers that stand in a trie fit into words. -/
def NumbersFit (t : Trie) : Prop :=
  ∀ path n, t.slotAt path = .leaf n → n < invalidWord.toNat

theorem NumbersFit.collapse {t : Trie} (h : t.NumbersFit) : t.collapse.NumbersFit :=
  fun path n hn ↦ h path n (slotAt_of_slotAt_collapse hn Slot.noConfusion)

theorem entry_eq {t : Trie} {l : Layout} (h : t.Laid l) (hfit : t.NumbersFit)
    (hsize : l.size ≤ maxWords) {table : FlatTable} (hbody : table.body = (t.body l).toArray)
    {path : List Nat} {x : NodeId} {o i : Nat} (hpath : t.slotAt path = .node x)
    (ho : l.start? x = some o) (hi : i < (t.kind x).slotCount) :
    table.entry ⟨t.kind x, o⟩ i = some (t.entryOf l (t.slot ⟨x, i⟩)) := by
  rw [FlatTable.entry, if_pos hi, hbody, List.getElem?_toArray, h.getElem?_body ho hi,
    Option.bind_some, Entry.unpack_pack]
  cases hs : t.slot ⟨x, i⟩ with
  | empty => trivial
  | leaf n => exact hfit (path ++ [i]) n (by rw [slotAt_concat, hpath, enter_node, hs])
  | node y =>
    obtain ⟨o', ho', -⟩ := h.exists_start_lt ho hs
    have hlt := Nat.lt_of_lt_of_le (h.start_lt ho') hsize
    rw [entryOf, Entry.Fits, ho', Option.getD_some]
    exact Nat.lt_of_lt_of_le hlt (Nat.sub_le _ _)

/-- **Looking up is walking**, from every table on. -/
theorem lookupWithin_eq_walkWithin {t : Trie} {l : Layout} (h : t.Laid l) (hfit : t.NumbersFit)
    (hsize : l.size ≤ maxWords) {table : FlatTable} (hbody : table.body = (t.body l).toArray)
    {bound visits : Nat} {path : List Nat} {x : NodeId} {o : Nat} (hb : t.Within bound x)
    (hpath : t.slotAt path = .node x) (ho : l.start? x = some o) (hvisits : o < visits) (k : Key) :
    table.lookupWithin visits ⟨t.kind x, o⟩ k = t.walkWithin bound x k := by
  induction bound generalizing visits path x o k with
  | zero => exact hb.elim
  | succ bound ih =>
    cases visits with
    | zero => exact absurd hvisits (Nat.not_lt_zero o)
    | succ visits =>
      rw [FlatTable.lookupWithin, walkWithin]
      cases hchoose : k.choose (t.kind x) with
      | none => rfl
      | some c =>
        obtain ⟨i, k'⟩ := c
        dsimp only
        rw [entry_eq h hfit hsize hbody hpath ho (Key.lt_slotCount_of_choose hchoose)]
        change _ = match t.slot ⟨x, i⟩ with
          | .empty => none
          | .leaf n => some n
          | .node child => t.walkWithin bound child k'
        cases hs : t.slot ⟨x, i⟩ with
        | empty => rfl
        | leaf n => rfl
        | node y =>
          -- A child starts before its parent, so that fewer visits are enough for it.
          obtain ⟨o', ho', hlt⟩ := h.exists_start_lt ho hs
          rw [entryOf, ho', Option.getD_some]
          have hchild : t.slotAt (path ++ [i]) = .node y := by
            rw [slotAt_concat, hpath, enter_node, hs]
          exact ih (hb i y hs) hchild ho' (Nat.lt_of_lt_of_le hlt (Nat.le_of_lt_succ hvisits)) k'

theorem lookup_toFlat {t : Trie} (hc : t.Closed) (hpos : 0 < t.size) (hb : t.Within t.size root)
    (hfit : t.NumbersFit) {table : FlatTable} (h : t.toFlat = some table) (k : Key) :
    table.lookup k = t.walk k := by
  obtain ⟨hlaid, o, ho⟩ := laid_layout hc hpos hb
  rw [toFlat] at h
  split at h
  · next hsize =>
    cases h
    rw [FlatTable.lookup, ho, Option.getD_some]
    refine lookupWithin_eq_walkWithin hlaid hfit hsize rfl hb (slotAt_nil t) ho ?_ k
    -- The root starts before the end of the words, and there are at least as many visits as words.
    have hlt := hlaid.start_lt ho
    rw [FlatTable.visitBound, List.size_toArray, hlaid.length_body]
    refine Nat.lt_succ_of_le ?_
    exact (Nat.le_succ_of_le (Nat.le_of_lt hlt)).trans
      (Nat.le_mul_of_pos_right _ (Nat.succ_pos _))
  · cases h

/-- **The flat table decodes as the trie does**, collapsed or not. -/
theorem lookup_flatten {t : Trie} (hc : t.Closed) (hpos : 0 < t.size) (hb : t.Within t.size root)
    (hfit : t.NumbersFit) {collapse : Bool} {table : FlatTable}
    (h : t.flatten collapse = some table) (k : Key) : table.lookup k = t.walk k := by
  rw [flatten] at h
  split at h
  · have hb' : t.collapse.Within t.collapse.size root := by
      rw [size_collapse]
      exact hb.collapse
    rw [lookup_toFlat hc.collapse (by rwa [size_collapse]) hb' hfit.collapse h, walk_collapse]
  · exact lookup_toFlat hc hpos hb hfit h k

end Trie

end DecodeTrie
