import DecodeTrie.Proofs.Table.Lookups

/-!
# The runs of a flat table

The words of a flat table are the runs of the nodes, one after the other (`Trie.WrittenAs`). The
order of the nodes alone says where a run starts and what its words are, so that nothing of the
traversal which has found the order is left: a run starts behind the words of the nodes before it,
and a slot that refers to a node becomes a reference to that start.

Where every node is reached from the root, the layout of a trie is such an order
(`exists_writtenAs_of_toFlat`). Collapsing ModRM tables keeps every node within reach, because a
table that never looks at the mode refers to the same nodes at mode 0 (`exists_slotAt_collapse`).
-/

namespace DecodeTrie

namespace Trie

/-! ## Runs in an order -/

/-- The first word of the run of a node, where the runs of the nodes of `order` follow one
another. -/
def startIn (t : Trie) (order : List NodeId) (x : NodeId) : Nat :=
  t.words (order.takeWhile (· != x))

/-- The word behind the run of a node. -/
def endIn (t : Trie) (order : List NodeId) (x : NodeId) : Nat :=
  t.startIn order x + (t.kind x).slotCount

/-- The reference to the run of a node. -/
def refIn (t : Trie) (order : List NodeId) (x : NodeId) : TableRef :=
  ⟨t.kind x, t.startIn order x⟩

/-- The entry for a slot. -/
def entryIn (t : Trie) (order : List NodeId) : Slot → Entry
  | .empty => .invalid
  | .leaf n => .encoding n
  | .node y => .table (t.refIn order y)

/-- The words of the run of a node. -/
def runIn (t : Trie) (order : List NodeId) (x : NodeId) : List UInt32 :=
  (t.node x).slots.toList.map fun s ↦ (t.entryIn order s).pack

/-- **A flat table writes out a trie**: its words are the runs of the nodes. -/
structure WrittenAs (t : Trie) (order : List NodeId) (table : FlatTable) : Prop where
  /-- Every node has one run. -/
  perm : order.Perm (List.range t.size)
  /-- The body is the runs, one after the other. -/
  body_eq : table.body.toList = order.flatMap (t.runIn order)
  /-- The run of the root is the last one. -/
  root_last : order.getLast? = some root
  /-- The root reference is to that run. -/
  root_eq : table.root = t.refIn order root
  /-- A run ends before those that refer to it start. -/
  backwards : ∀ {x y : NodeId} {i : Nat}, t.slot ⟨x, i⟩ = .node y →
    t.endIn order y ≤ t.startIn order x
  /-- There are no more words than offsets can reach. -/
  size_le : table.body.size ≤ maxWords

theorem length_runIn (t : Trie) (order : List NodeId) (x : NodeId) :
    (t.runIn order x).length = (t.kind x).slotCount := by
  rw [runIn, List.length_map, Vector.length_toList]
  rfl

theorem startIn_of_eq {t : Trie} {order pre post : List NodeId} {x : NodeId}
    (h : order = pre ++ x :: post) (hx : x ∉ pre) : t.startIn order x = t.words pre := by
  rw [startIn, h, List.takeWhile_append_of_pos fun y hy ↦ by simpa using ne_of_mem_of_not_mem hy hx,
    List.takeWhile_cons_of_neg (by simp), List.append_nil]

/-! ## The number of words -/

theorem length_flatMap_runIn (t : Trie) (order nodes : List NodeId) :
    (nodes.flatMap (t.runIn order)).length = t.words nodes := by
  induction nodes with
  | nil => rfl
  | cons x nodes ih => rw [List.flatMap_cons, List.length_append, length_runIn, ih, words]

theorem words_perm (t : Trie) {a b : List NodeId} (h : a.Perm b) : t.words a = t.words b := by
  induction h with
  | nil => rfl
  | cons x _ ih => rw [words, words, ih]
  | swap x y l => rw [words, words, words, words, Nat.add_left_comm]
  | trans _ _ ih ih' => rw [ih, ih']

/-- The words of some nodes, by the kinds of the nodes. -/
theorem words_eq_countP (t : Trie) (nodes : List NodeId) :
    t.words nodes =
      256 * (nodes.countP (t.kind · == .opcode) + nodes.countP (t.kind · == .suffix)) +
        6 * nodes.countP (t.kind · == .prefixes) + 32 * nodes.countP (t.kind · == .modrm) +
        8 * (nodes.countP (t.kind · == .regOnly) + nodes.countP (t.kind · == .rm)) +
        2 * nodes.countP (t.kind · == .rexW) := by
  induction nodes with
  | nil => rfl
  | cons x nodes ih =>
    rw [words, ih]
    simp only [List.countP_cons]
    cases t.kind x <;> simp [NodeKind.slotCount] <;> omega

theorem map_node_range (t : Trie) : (List.range t.size).map t.node = t.nodes.toList := by
  refine List.ext_getElem (by simp [size]) fun i hi hi' ↦ ?_
  have hlt : i < t.nodes.size := by simpa using hi'
  simp [node, hlt]

theorem countP_range (t : Trie) (k : NodeKind) :
    (List.range t.size).countP (t.kind · == k) = t.count k := by
  rw [count, ← map_node_range, List.countP_map]
  rfl

/-- The words of all nodes, by the number of nodes of each kind. -/
theorem words_range (t : Trie) :
    t.words (List.range t.size) =
      256 * (t.count .opcode + t.count .suffix) + 6 * t.count .prefixes + 32 * t.count .modrm +
        8 * (t.count .regOnly + t.count .rm) + 2 * t.count .rexW := by
  rw [words_eq_countP]
  simp only [countP_range]

namespace WrittenAs

variable {t : Trie} {order : List NodeId} {table : FlatTable} (h : t.WrittenAs order table)

include h

theorem nodup : order.Nodup := h.perm.nodup_iff.mpr List.nodup_range

theorem mem_iff {x : NodeId} : x ∈ order ↔ x < t.size := by
  rw [h.perm.mem_iff, List.mem_range]

theorem size_body : table.body.size = t.words order := by
  rw [← Array.length_toList, h.body_eq, length_flatMap_runIn]

theorem size_body_eq_words_range : table.body.size = t.words (List.range t.size) := by
  rw [h.size_body, t.words_perm h.perm]

/-- The nodes before and behind one. -/
theorem exists_split {x : NodeId} (hx : x < t.size) :
    ∃ pre post, order = pre ++ x :: post ∧ t.startIn order x = t.words pre := by
  obtain ⟨pre, post, horder⟩ := List.append_of_mem (h.mem_iff.mpr hx)
  have hnodup := h.nodup
  rw [horder, List.nodup_middle, List.nodup_cons] at hnodup
  exact ⟨pre, post, horder, startIn_of_eq horder fun hpre ↦
    hnodup.1 (List.mem_append_left _ hpre)⟩

theorem endIn_le {x : NodeId} (hx : x < t.size) : t.endIn order x ≤ table.body.size := by
  obtain ⟨pre, post, horder, hstart⟩ := h.exists_split hx
  rw [endIn, hstart, h.size_body, horder, words_append, words]
  omega

/-- The root reference is to the last words. -/
theorem root_eq_sub (hkind : t.kind root = .opcode) :
    table.root = ⟨.opcode, table.body.size - 256⟩ := by
  obtain ⟨pre, horder⟩ := List.getLast?_eq_some_iff.mp h.root_last
  have hnodup := h.nodup
  rw [horder, List.nodup_append] at hnodup
  have hpre : root ∉ pre := fun hx ↦ hnodup.2.2 _ hx _ (List.mem_singleton.mpr rfl) rfl
  have hsize : table.body.size = t.words pre + 256 := by
    rw [h.size_body, horder, words_append, words, words, hkind]
    rfl
  rw [h.root_eq, refIn, hkind, startIn_of_eq horder hpre, hsize, Nat.add_sub_cancel]

/-- The words of a run stand from its start on. -/
theorem getElem?_body {x : NodeId} {i : Nat} (hx : x < t.size) (hi : i < (t.kind x).slotCount) :
    table.body[t.startIn order x + i]? = some (t.entryIn order (t.slot ⟨x, i⟩)).pack := by
  obtain ⟨pre, post, horder, hstart⟩ := h.exists_split hx
  have hi' : i < (t.node x).kind.slotCount := hi
  have hrun : (t.runIn order x)[i]? = some (t.entryIn order (t.slot ⟨x, i⟩)).pack := by
    rw [runIn, List.getElem?_map, Vector.getElem?_toList, slot, Node.slot]
    simp [hi']
  rw [← Array.getElem?_toList, h.body_eq, hstart]
  conv_lhs => rw [horder]
  rw [List.flatMap_append, List.flatMap_cons,
    List.getElem?_append_right (by rw [length_flatMap_runIn]; omega), length_flatMap_runIn,
    Nat.add_sub_cancel_left, List.getElem?_append_left (by rw [← horder, length_runIn]; exact hi),
    ← horder, hrun]

/-- Every word belongs to a run. -/
theorem exists_run {j : Nat} (hj : j < table.body.size) :
    ∃ x i, x < t.size ∧ i < (t.kind x).slotCount ∧ j = t.startIn order x + i := by
  suffices hsuffix : ∀ rest pre, order = pre ++ rest → t.words pre ≤ j →
      ∃ x i, x < t.size ∧ i < (t.kind x).slotCount ∧ j = t.startIn order x + i from
    hsuffix order [] rfl (Nat.zero_le j)
  -- The first run that ends behind the word is the one.
  intro rest
  induction rest with
  | nil =>
    intro pre horder hpre
    rw [h.size_body, horder, List.append_nil] at hj
    exact absurd hj (Nat.not_lt_of_le hpre)
  | cons x rest ih =>
    intro pre horder hpre
    rcases Nat.lt_or_ge j (t.words (pre ++ [x])) with hlt | hge
    · have hnodup := h.nodup
      rw [horder, List.nodup_middle, List.nodup_cons] at hnodup
      have hstart : t.startIn order x = t.words pre :=
        startIn_of_eq horder fun hx ↦ hnodup.1 (List.mem_append_left _ hx)
      rw [words_append, words, words, Nat.add_zero] at hlt
      refine ⟨x, j - t.words pre, h.mem_iff.mp (by rw [horder]; simp), ?_, ?_⟩ <;> omega
    · exact ih (pre ++ [x]) (by rw [horder]; simp) hge

/-- A reference to a run is read back from its word. -/
theorem unpack_refIn {y : NodeId} (hy : y < t.size) :
    Entry.unpack (t.refIn order y).pack = some (.table (t.refIn order y)) := by
  have hstart : t.startIn order y < maxWords :=
    Nat.lt_of_lt_of_le (Nat.lt_add_of_pos_right (t.kind y).slotCount_pos)
      ((h.endIn_le hy).trans h.size_le)
  exact Entry.unpack_pack (e := .table (t.refIn order y))
    (Nat.lt_of_lt_of_le hstart (Nat.sub_le _ _))

end WrittenAs

/-! ## The layout of a trie -/

namespace Laid

variable {t : Trie} {l : Layout} (h : t.Laid l)

include h

theorem startIn_order {x : NodeId} {o : Nat} (hx : l.start? x = some o) :
    t.startIn l.order.toList x = o := by
  obtain ⟨pre, post, horder, rfl⟩ := h.start_eq hx
  have hnodup := h.nodup
  rw [horder, List.nodup_middle, List.nodup_cons] at hnodup
  exact startIn_of_eq horder fun hpre ↦ hnodup.1 (List.mem_append_left _ hpre)

/-- Every node that is reached from a node with a run has a run. -/
theorem exists_start {o : Nat} (hroot : l.start? root = some o) {path : List Nat} {x : NodeId}
    (hx : t.slotAt path = .node x) : ∃ o, l.start? x = some o := by
  induction path using List.reverseRecOn generalizing x with
  | nil =>
    cases hx
    exact ⟨o, hroot⟩
  | append_singleton q i ih =>
    obtain ⟨y, hq, hy⟩ := WellLinked.exists_parent_of_slotAt hx
    obtain ⟨oy, hoy⟩ := ih hq
    obtain ⟨ox, hox, -⟩ := h.below hoy hy
    exact ⟨ox, hox⟩

/-- The nodes of a layout are those of the trie. -/
theorem order_perm {o : Nat} (hroot : l.start? root = some o)
    (hreached : ∀ x, x < t.size → ∃ path, t.slotAt path = .node x) :
    l.order.toList.Perm (List.range t.size) := by
  refine (List.perm_ext_iff_of_nodup h.nodup List.nodup_range).mpr fun x ↦ ?_
  rw [List.mem_range]
  constructor
  · intro hx
    obtain ⟨o', ho'⟩ := h.start_of_mem hx
    by_contra hge
    rw [Layout.start?, Array.getElem?_eq_none (by rw [h.starts_size]; omega)] at ho'
    cases ho'
  · intro hx
    obtain ⟨path, hpath⟩ := hreached x hx
    obtain ⟨o', ho'⟩ := h.exists_start hroot hpath
    obtain ⟨pre, post, horder, -⟩ := h.start_eq ho'
    rw [horder]
    simp

end Laid

/-- The size of the layout of a trie, where every node is reached from the root. -/
theorem WellLinked.size_layout {t : Trie} (h : t.WellLinked) :
    t.layout.size = t.words (List.range t.size) := by
  obtain ⟨hlaid, o, hroot⟩ := laid_layout h.closed h.size_pos h.within_root
  rw [hlaid.size_eq, t.words_perm (hlaid.order_perm hroot fun _ ↦ h.reached)]

/-- The root comes last in a layout. -/
theorem getLast?_order_layout {t : Trie} (hpos : 0 < t.size) :
    t.layout.order.toList.getLast? = some root := by
  obtain ⟨n, hn⟩ := Nat.exists_eq_succ_of_ne_zero (Nat.ne_of_gt hpos)
  have hnew : ((Layout.empty t.size).start? root).isSome = false := by
    rw [Layout.start?_empty]
    rfl
  rw [hn] at hnew
  rw [layout, hn, layoutWithin, if_neg (by rw [hnew]; decide), Layout.append, Array.toList_push,
    List.getLast?_concat]

/-- **The flat table of a trie writes it out**, where every node is reached from the root. -/
theorem exists_writtenAs_of_toFlat {t : Trie} (hc : t.Closed) (hpos : 0 < t.size)
    (hb : t.Within t.size root) (hreached : ∀ x, x < t.size → ∃ path, t.slotAt path = .node x)
    {table : FlatTable} (h : t.toFlat = some table) : ∃ order, t.WrittenAs order table := by
  obtain ⟨hlaid, o, hroot⟩ := laid_layout hc hpos hb
  have hstart {x : NodeId} (hx : x < t.size) :
      t.layout.start? x = some (t.startIn t.layout.order.toList x) := by
    obtain ⟨path, hpath⟩ := hreached x hx
    obtain ⟨o', ho'⟩ := hlaid.exists_start hroot hpath
    rw [ho', hlaid.startIn_order ho']
  have hentry (p : Position) :
      t.entryOf t.layout (t.slot p) = t.entryIn t.layout.order.toList (t.slot p) := by
    cases hs : t.slot p with
    | empty => rfl
    | leaf n => rfl
    | node y => rw [entryOf, entryIn, refIn, hstart (hc hs), Option.getD_some]
  have hrun (x : NodeId) : t.run t.layout x = t.runIn t.layout.order.toList x := by
    refine List.map_congr_left fun s hs ↦ ?_
    obtain ⟨i, rfl⟩ := Node.exists_slot_of_mem hs
    exact congrArg Entry.pack (hentry ⟨x, i⟩)
  rw [toFlat] at h
  split at h
  · next hsize =>
    cases h
    refine ⟨t.layout.order.toList, hlaid.order_perm hroot hreached, ?_, getLast?_order_layout hpos,
      ?_, fun {x y i} hy ↦ ?_, ?_⟩
    · exact List.flatMap_congr fun x _ ↦ hrun x
    · rw [refIn, show t.layout.start? root = _ from hstart hpos, Option.getD_some]
    · have hx := hstart (lt_of_slot_node hy).1
      obtain ⟨o', ho', hle⟩ := hlaid.below hx hy
      rwa [endIn, hlaid.startIn_order ho']
    · rw [List.size_toArray, hlaid.length_body]
      exact hsize
  · cases h

/-! ## Collapsed tries -/

/-- A reference in a node is there in the collapsed node as well. -/
theorem exists_slot_collapse {t : Trie} {x y : NodeId} {i : Nat} (h : t.slot ⟨x, i⟩ = .node y) :
    ∃ j, t.collapse.slot ⟨x, j⟩ = .node y := by
  by_cases hx : (t.node x).ignoresMode = true
  · obtain ⟨hkind, hslot⟩ := Node.ignoresMode_iff.mp hx
    have hi : i < 32 := by
      have hlt := (lt_of_slot_node h).2
      rwa [kind, hkind] at hlt
    have hreg := hslot ⟨i % 8, Nat.mod_lt _ (by decide)⟩ ⟨i / 8, by omega⟩
    rw [show ModRM.slot (i % 8) (i / 8) = i from Nat.mod_add_div i 8] at hreg
    refine ⟨i % 8, ?_⟩
    rw [slot, node_collapse, Node.collapse_of_ignoresMode hx, Node.slot_toRegOnly,
      if_pos (Nat.mod_lt _ (by decide)), ← hreg]
    exact h
  · exact ⟨i, by rw [slot, node_collapse, Node.collapse_of_not_ignoresMode hx]; exact h⟩

/-- **Collapsing keeps every node within reach.** -/
theorem exists_slotAt_collapse {t : Trie} {path : List Nat} {x : NodeId}
    (h : t.slotAt path = .node x) : ∃ path', t.collapse.slotAt path' = .node x := by
  induction path using List.reverseRecOn generalizing x with
  | nil => exact ⟨[], h⟩
  | append_singleton q i ih =>
    obtain ⟨y, hq, hy⟩ := WellLinked.exists_parent_of_slotAt h
    obtain ⟨q', hq'⟩ := ih hq
    obtain ⟨j, hj⟩ := exists_slot_collapse hy
    exact ⟨q' ++ [j], by rw [slotAt_concat, hq', enter_node, hj]⟩

/-- The ModRM tables that are left are those that look at the mode. -/
theorem kind_collapse_eq_modrm_iff {t : Trie} {x : NodeId} :
    t.collapse.kind x = .modrm ↔ t.kind x = .modrm ∧ ¬ (t.node x).ignoresMode = true := by
  rw [kind, kind, node_collapse]
  by_cases hx : (t.node x).ignoresMode = true
  · have hkind : (t.node x).toRegOnly.kind ≠ .modrm := NodeKind.noConfusion
    rw [Node.collapse_of_ignoresMode hx]
    exact iff_of_false hkind fun h ↦ h.2 hx
  · rw [Node.collapse_of_not_ignoresMode hx, and_iff_left hx]

/-- A collapsed table has 24 words less. -/
theorem words_eq_words_collapse (t : Trie) (nodes : List NodeId) :
    t.words nodes =
      t.collapse.words nodes + 24 * nodes.countP fun x ↦ (t.node x).ignoresMode := by
  induction nodes with
  | nil => rfl
  | cons x nodes ih =>
    rw [words, words, ih, List.countP_cons, kind, kind, node_collapse]
    by_cases hx : (t.node x).ignoresMode = true
    · have hkind : (t.node x).toRegOnly.kind = .regOnly := rfl
      rw [if_pos hx, Node.collapse_of_ignoresMode hx, hkind, (Node.ignoresMode_iff.mp hx).1]
      simp only [NodeKind.slotCount]
      omega
    · rw [if_neg hx, Node.collapse_of_not_ignoresMode hx]
      omega

/-- **What collapsing saves**: 24 words for each table that is collapsed. -/
theorem words_range_eq_collapse (t : Trie) :
    t.words (List.range t.size) =
      t.collapse.words (List.range t.collapse.size) + 24 * t.collapsible := by
  rw [words_eq_words_collapse, size_collapse, collapsible, ← map_node_range, List.countP_map]
  rfl

/-- The trie that is laid out: collapsed, if that is asked for. -/
def collapseIf (t : Trie) (collapse : Bool) : Trie := if collapse then t.collapse else t

/-- **Flattening writes a trie out**, collapsed or not. -/
theorem WellLinked.exists_writtenAs {t : Trie} (h : t.WellLinked) {collapse : Bool}
    {table : FlatTable} (hflat : t.flatten collapse = some table) :
    ∃ order, (t.collapseIf collapse).WrittenAs order table := by
  cases collapse with
  | false =>
    exact exists_writtenAs_of_toFlat h.closed h.size_pos h.within_root (fun _ ↦ h.reached) hflat
  | true =>
    have hb : t.collapse.Within t.collapse.size root := by
      rw [size_collapse]
      exact h.within_root.collapse
    refine exists_writtenAs_of_toFlat h.closed.collapse (by rw [size_collapse]; exact h.size_pos)
      hb (fun x hx ↦ ?_) hflat
    rw [size_collapse] at hx
    obtain ⟨path, hpath⟩ := h.reached hx
    exact exists_slotAt_collapse hpath

end Trie

end DecodeTrie
