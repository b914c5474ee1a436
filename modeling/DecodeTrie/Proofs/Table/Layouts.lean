import DecodeTrie.Proofs.Trie.Copying
import DecodeTrie.Proofs.Trie.Leaves
import DecodeTrie.Table.Flat

/-!
# Layouts

The layout of a trie places every node below the root behind the nodes that it refers to, and the
start of a run is the number of words before it. `Laid` is this invariant; `laidOut_of_layoutWithin`
is the run of the traversal, in which a node is not laid out while its own children are, because
paths do not run in circles.
-/

namespace DecodeTrie

@[simp] theorem Layout.start?_empty (nodes : Nat) (x : NodeId) : (empty nodes).start? x = none := by
  rw [start?, empty, Array.getElem?_replicate]
  split <;> rfl

theorem Layout.start?_append {l : Layout} {x : NodeId} (hx : x < l.starts.size) (words : Nat)
    (z : NodeId) : (l.append x words).start? z = if z = x then some l.size else l.start? z := by
  rw [start?, append, start?, Array.getElem?_setIfInBounds]
  by_cases hz : x = z
  · subst hz
    rw [if_pos rfl, if_pos hx, if_pos rfl]
    rfl
  · rw [if_neg hz, if_neg (Ne.symm hz)]

namespace Node

theorem mem_children_iff {n : Node} {y : NodeId} : y ∈ n.children ↔ ∃ i, n.slot i = .node y := by
  rw [children, List.mem_filterMap]
  constructor
  · rintro ⟨s, hs, hy⟩
    obtain ⟨i, rfl⟩ := exists_slot_of_mem hs
    cases hs : n.slot i with
    | node z => rw [hs] at hy; cases hy; exact ⟨i, hs⟩
    | empty => rw [hs] at hy; cases hy
    | leaf m => rw [hs] at hy; cases hy
  · rintro ⟨i, hi⟩
    exact ⟨.node y, by rw [← hi]; exact slot_mem (by rw [hi]; exact Slot.noConfusion), rfl⟩

end Node

namespace Trie

/-- No path of at least one slot leads from a node to itself. -/
theorem Within.not_circular {t : Trie} {bound : Nat} {x : NodeId} (h : t.Within bound x) (i : Nat)
    (path : List Nat) : t.slotFrom (.node x) (i :: path) ≠ .node x := by
  induction bound generalizing x i path with
  | zero => exact h.elim
  | succ bound ih =>
    intro hx
    rw [slotFrom_cons, enter_node] at hx
    cases hy : t.slot ⟨x, i⟩ with
    | empty => rw [hy, slotFrom_empty] at hx; cases hx
    | leaf n =>
      rw [hy, slotFrom_leaf] at hx
      split at hx <;> cases hx
    | node y =>
      rw [hy] at hx
      -- The circle can be entered at the child as well.
      have hcircle : t.slotFrom (.node y) (path ++ [i]) = .node y := by
        rw [slotFrom_append, hx]
        exact hy
      cases path with
      | nil => exact ih (h i y hy) i [] hcircle
      | cons j path => exact ih (h i y hy) j (path ++ [i]) hcircle

/-- The number of words of the runs of some nodes. -/
def words (t : Trie) : List NodeId → Nat
  | [] => 0
  | x :: order => (t.kind x).slotCount + t.words order

theorem words_append (t : Trie) (a b : List NodeId) : t.words (a ++ b) = t.words a + t.words b := by
  induction a with
  | nil => rw [List.nil_append, words, Nat.zero_add]
  | cons x a ih => rw [List.cons_append, words, words, ih, Nat.add_assoc]

/-- **The layout invariant.** -/
structure Laid (t : Trie) (l : Layout) : Prop where
  /-- There is a place for the start of every node. -/
  starts_size : l.starts.size = t.size
  /-- The size is the number of words. -/
  size_eq : l.size = t.words l.order.toList
  /-- No node has two runs. -/
  nodup : l.order.toList.Nodup
  /-- A node with a run has a start. -/
  start_of_mem : ∀ {x : NodeId}, x ∈ l.order.toList → ∃ o, l.start? x = some o
  /-- A start is the number of words before. -/
  start_eq : ∀ {x : NodeId} {o : Nat}, l.start? x = some o →
    ∃ pre post, l.order.toList = pre ++ x :: post ∧ o = t.words pre
  /-- A run comes behind those of the nodes that it refers to. -/
  below : ∀ {x y : NodeId} {o i : Nat}, l.start? x = some o → t.slot ⟨x, i⟩ = .node y →
    ∃ o', l.start? y = some o' ∧ o' + (t.kind y).slotCount ≤ o

theorem laid_empty (t : Trie) : t.Laid (Layout.empty t.size) where
  starts_size := by rw [Layout.empty, Array.size_replicate]
  size_eq := rfl
  nodup := .nil
  start_of_mem hx := absurd hx List.not_mem_nil
  start_eq {x o} hx := by
    rw [Layout.start?_empty] at hx
    cases hx
  below {x y o i} hx := by
    rw [Layout.start?_empty] at hx
    cases hx

namespace Laid

variable {t : Trie} {l : Layout} (h : t.Laid l)

include h

/-- A run lies within the words. -/
theorem start_add_le {x : NodeId} {o : Nat} (hx : l.start? x = some o) :
    o + (t.kind x).slotCount ≤ l.size := by
  obtain ⟨pre, post, horder, rfl⟩ := h.start_eq hx
  rw [h.size_eq, horder, words_append, words]
  omega

theorem start_lt {x : NodeId} {o : Nat} (hx : l.start? x = some o) : o < l.size :=
  Nat.lt_of_lt_of_le (Nat.lt_add_of_pos_right (t.kind x).slotCount_pos) (h.start_add_le hx)

/-- A node starts behind those that it refers to. -/
theorem exists_start_lt {x y : NodeId} {o i : Nat} (hx : l.start? x = some o)
    (hy : t.slot ⟨x, i⟩ = .node y) : ∃ o', l.start? y = some o' ∧ o' < o := by
  obtain ⟨o', ho', hle⟩ := h.below hx hy
  exact ⟨o', ho', Nat.lt_of_lt_of_le (Nat.lt_add_of_pos_right (t.kind y).slotCount_pos) hle⟩

/-- Appending the run of a node whose children have theirs. -/
theorem append {x : NodeId} (hx : x < t.size) (hnew : l.start? x = none)
    (hbelow : ∀ i y, t.slot ⟨x, i⟩ = .node y → ∃ o, l.start? y = some o) :
    t.Laid (l.append x (t.kind x).slotCount) := by
  have hstart (z : NodeId) : (l.append x (t.kind x).slotCount).start? z =
      if z = x then some l.size else l.start? z :=
    Layout.start?_append (by rwa [h.starts_size]) _ z
  have hkeep {z : NodeId} {o : Nat} (hz : l.start? z = some o) :
      (l.append x (t.kind x).slotCount).start? z = some o := by
    rw [hstart, if_neg, hz]
    rintro rfl
    rw [hnew] at hz
    cases hz
  have horder : (l.append x (t.kind x).slotCount).order.toList = l.order.toList ++ [x] :=
    Array.toList_push
  have hx' : x ∉ l.order.toList := by
    intro hmem
    obtain ⟨o, ho⟩ := h.start_of_mem hmem
    rw [hnew] at ho
    cases ho
  refine ⟨?_, ?_, ?_, ?_, ?_, ?_⟩
  · rw [Layout.append, Array.size_setIfInBounds, h.starts_size]
  · rw [horder, words_append, ← h.size_eq]
    rfl
  · rw [horder]
    exact List.nodup_append.mpr ⟨h.nodup, List.nodup_singleton x, fun z hz y hy hzy ↦
      hx' (List.mem_singleton.mp hy ▸ hzy ▸ hz)⟩
  · intro z hz
    rw [horder] at hz
    rw [hstart]
    split
    · exact ⟨_, rfl⟩
    · next hzx =>
      refine h.start_of_mem ((List.mem_append.mp hz).resolve_right fun hz ↦ ?_)
      exact hzx (List.mem_singleton.mp hz)
  · intro z o hz
    rw [hstart] at hz
    rw [horder]
    split at hz
    · next hzx =>
      cases hz
      exact ⟨l.order.toList, [], by rw [hzx], h.size_eq⟩
    · obtain ⟨pre, post, hpre, ho⟩ := h.start_eq hz
      exact ⟨pre, post ++ [x], by rw [hpre]; simp, ho⟩
  · intro z y o i hz hy
    rw [hstart] at hz
    split at hz
    · next hzx =>
      cases hz
      subst hzx
      obtain ⟨o, ho⟩ := hbelow i y hy
      exact ⟨o, hkeep ho, h.start_add_le ho⟩
    · obtain ⟨o', ho', hle⟩ := h.below hz hy
      exact ⟨o', hkeep ho', hle⟩

end Laid

/-- What laying out some nodes and what is below them adds to a layout. -/
structure LaidOut (t : Trie) (l : Layout) (nodes : List NodeId) (l' : Layout) : Prop where
  /-- The invariant is kept. -/
  laid : t.Laid l'
  /-- Runs keep their places. -/
  kept : ∀ {z : NodeId} {o : Nat}, l.start? z = some o → l'.start? z = some o
  /-- The nodes have runs. -/
  done : ∀ x ∈ nodes, ∃ o, l'.start? x = some o
  /-- A node that gets a run is one of the nodes or below one. -/
  fresh : ∀ {z : NodeId}, l.start? z = none → l'.start? z ≠ none →
    ∃ x ∈ nodes, ∃ path, t.slotFrom (.node x) path = .node z

namespace LaidOut

variable {t : Trie} {l l' l'' : Layout}

theorem nil (h : t.Laid l) : LaidOut t l [] l :=
  ⟨h, id, fun _ hx ↦ absurd hx List.not_mem_nil, fun hn hs ↦ absurd hn hs⟩

theorem cons {x : NodeId} {nodes : List NodeId} (h : LaidOut t l [x] l')
    (h' : LaidOut t l' nodes l'') : LaidOut t l (x :: nodes) l'' where
  laid := h'.laid
  kept hz := h'.kept (h.kept hz)
  done z hz := by
    rcases List.mem_cons.mp hz with rfl | hz
    · obtain ⟨o, ho⟩ := h.done z (List.mem_singleton.mpr rfl)
      exact ⟨o, h'.kept ho⟩
    · exact h'.done z hz
  fresh {z} hn hs := by
    cases hz : l'.start? z with
    | none =>
      obtain ⟨y, hy, path, hpath⟩ := h'.fresh hz hs
      exact ⟨y, List.mem_cons_of_mem _ hy, path, hpath⟩
    | some o =>
      obtain ⟨y, hy, path, hpath⟩ := h.fresh hn (by rw [hz]; exact Option.some_ne_none o)
      rw [List.mem_singleton.mp hy] at hpath
      exact ⟨x, List.mem_cons_self, path, hpath⟩

/-- Laying out nodes one after the other. -/
theorem foldl {f : Layout → NodeId → Layout} {nodes : List NodeId}
    (hf : ∀ l, t.Laid l → ∀ x ∈ nodes, LaidOut t l [x] (f l x)) (h : t.Laid l) :
    LaidOut t l nodes (nodes.foldl f l) := by
  induction nodes generalizing l with
  | nil => exact nil h
  | cons x nodes ih =>
    have hx := hf l h x List.mem_cons_self
    exact hx.cons (ih (fun l hl y hy ↦ hf l hl y (List.mem_cons_of_mem _ hy)) hx.laid)

end LaidOut

/-- **Laying out a node** and what is below it. -/
theorem laidOut_of_layoutWithin {t : Trie} (hc : t.Closed) {bound : Nat} {x : NodeId}
    (hx : x < t.size) (hb : t.Within bound x) {l : Layout} (h : t.Laid l) :
    LaidOut t l [x] (t.layoutWithin bound l x) := by
  induction bound generalizing x l with
  | zero => exact hb.elim
  | succ bound ih =>
    rw [layoutWithin]
    split
    · next hsome =>
      obtain ⟨o, ho⟩ := Option.isSome_iff_exists.mp hsome
      refine ⟨h, id, fun z hz ↦ ?_, fun hn hs ↦ absurd hn hs⟩
      rw [List.mem_singleton.mp hz]
      exact ⟨o, ho⟩
    · next hnone =>
      have hnew : l.start? x = none := by simpa using hnone
      have hchild {y : NodeId} (hy : y ∈ (t.node x).children) : ∃ i, t.slot ⟨x, i⟩ = .node y :=
        Node.mem_children_iff.mp hy
      have hfold : LaidOut t l (t.node x).children
          ((t.node x).children.foldl (t.layoutWithin bound) l) :=
        .foldl (fun l hl y hy ↦ by
          obtain ⟨i, hi⟩ := hchild hy
          exact ih (hc hi) (hb i y hi) hl) h
      generalize (t.node x).children.foldl (t.layoutWithin bound) l = below at hfold
      -- The node itself is not among what is below it.
      have hnew' : below.start? x = none := by
        by_contra hs
        obtain ⟨y, hy, path, hpath⟩ := hfold.fresh hnew hs
        obtain ⟨i, hi⟩ := hchild hy
        refine hb.not_circular i path ?_
        rw [slotFrom_cons, enter_node, hi, hpath]
      have hstart (z : NodeId) : (below.append x (t.kind x).slotCount).start? z =
          if z = x then some below.size else below.start? z :=
        Layout.start?_append (by rwa [hfold.laid.starts_size]) _ z
      refine ⟨?_, ?_, ?_, ?_⟩
      · exact hfold.laid.append hx hnew' fun i y hy ↦
          hfold.done y (Node.mem_children_iff.mpr ⟨i, hy⟩)
      · intro z o hz
        rw [hstart, if_neg, hfold.kept hz]
        rintro rfl
        rw [hnew] at hz
        cases hz
      · intro z hz
        rw [List.mem_singleton.mp hz]
        exact ⟨below.size, by rw [hstart, if_pos rfl]⟩
      · intro z hn hs
        rw [hstart] at hs
        split at hs
        · next hzx => exact ⟨x, List.mem_singleton.mpr rfl, [], by rw [hzx]; rfl⟩
        · obtain ⟨y, hy, path, hpath⟩ := hfold.fresh hn hs
          obtain ⟨i, hi⟩ := hchild hy
          refine ⟨x, List.mem_singleton.mpr rfl, i :: path, ?_⟩
          rw [slotFrom_cons, enter_node, hi, hpath]

/-- **The layout of a trie** keeps the invariant, and the root has a run. -/
theorem laid_layout {t : Trie} (hc : t.Closed) (hpos : 0 < t.size) (hb : t.Within t.size root) :
    t.Laid t.layout ∧ ∃ o, t.layout.start? root = some o := by
  have h := laidOut_of_layoutWithin hc hpos hb t.laid_empty
  exact ⟨h.laid, h.done root (List.mem_singleton.mpr rfl)⟩

/-! ## The words of a run -/

theorem length_run (t : Trie) (l : Layout) (x : NodeId) :
    (t.run l x).length = (t.kind x).slotCount := by
  rw [run, List.length_map, Vector.length_toList]
  rfl

theorem getElem?_run (t : Trie) (l : Layout) {x : NodeId} {i : Nat}
    (hi : i < (t.kind x).slotCount) :
    (t.run l x)[i]? = some (t.entryOf l (t.slot ⟨x, i⟩)).pack := by
  have hi' : i < (t.node x).kind.slotCount := hi
  rw [run, List.getElem?_map, Vector.getElem?_toList, slot, Node.slot]
  simp [hi']

theorem length_flatMap_run (t : Trie) (l : Layout) (order : List NodeId) :
    (order.flatMap (t.run l)).length = t.words order := by
  induction order with
  | nil => rfl
  | cons x order ih => rw [List.flatMap_cons, List.length_append, length_run, ih, words]

namespace Laid

variable {t : Trie} {l : Layout} (h : t.Laid l)

include h

theorem length_body : (t.body l).length = l.size := by
  rw [body, length_flatMap_run, h.size_eq]

/-- **The words of a run** stand from its start on. -/
theorem getElem?_body {x : NodeId} {o i : Nat} (hx : l.start? x = some o)
    (hi : i < (t.kind x).slotCount) :
    (t.body l)[o + i]? = some (t.entryOf l (t.slot ⟨x, i⟩)).pack := by
  obtain ⟨pre, post, horder, rfl⟩ := h.start_eq hx
  rw [body, horder, List.flatMap_append, List.flatMap_cons,
    List.getElem?_append_right (by rw [length_flatMap_run]; omega), length_flatMap_run,
    Nat.add_sub_cancel_left, List.getElem?_append_left (by rw [length_run]; exact hi),
    getElem?_run t l hi]

end Laid

end Trie

end DecodeTrie
