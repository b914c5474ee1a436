import DecodeTrie.Proofs.Build.Histories
import DecodeTrie.Proofs.Table.Runs

/-!
# What flattening writes

Whatever insertions have been made, and whether they have succeeded or failed in the middle: when
its words fit, the trie is written out run by run, collapsed or not (`written_flatten`). Every word
lies in the run of a node. It refers to the run of a node that has ended before, or stands for no
encoding, or is the number of an encoding that was to be inserted. As each node has one run, the
number of words is that of the slots of all nodes.
-/

namespace DecodeTrie

namespace Trie

/-! ## The words of a run -/

/-- What a word of the run of `x` can be, where the runs of the nodes of `order` follow one another
and `number` holds of the numbers in question: a reference goes to the start of a run of its kind,
which has ended when the run of `x` starts. -/
def Sound (t : Trie) (order : List NodeId) (number : Nat → Prop) (x : NodeId) (w : UInt32) : Prop :=
  match Entry.unpack w with
  | none => False
  | some .invalid => w = invalidWord
  | some (.encoding n) => w.toNat = n ∧ number n
  | some (.table r) => ∃ y < t.size, r = ⟨t.kind y, t.startIn order y⟩ ∧
      t.endIn order y ≤ t.startIn order x

namespace WrittenAs

variable {t : Trie} {order : List NodeId} {table : FlatTable} (h : t.WrittenAs order table)

include h

/-- The word of a slot is sound, if a number in the slot is one of those in question. -/
theorem sound_slot (hclosed : t.Closed) {number : Nat → Prop} {x : NodeId} {i : Nat}
    (hleaf : ∀ n, t.slot ⟨x, i⟩ = .leaf n → number n ∧ n < invalidWord.toNat) :
    t.Sound order number x (t.entryIn order (t.slot ⟨x, i⟩)).pack := by
  cases hs : t.slot ⟨x, i⟩ with
  | empty =>
    rw [Sound, entryIn, Entry.pack, Entry.unpack_invalidWord]
  | leaf n =>
    obtain ⟨hn, hlt⟩ := hleaf n hs
    have hunpack : Entry.unpack (Entry.encoding n).pack = some (.encoding n) :=
      Entry.unpack_pack (e := .encoding n) hlt
    rw [Sound, entryIn, hunpack]
    exact ⟨UInt32.toNat_ofNat_of_lt' (hlt.trans (UInt32.toNat_lt_size _)), hn⟩
  | node y =>
    rw [Sound, entryIn, Entry.pack, h.unpack_refIn (hclosed hs)]
    exact ⟨y, hclosed hs, rfl, h.backwards hs⟩

/-- Every word lies in a run and is sound there. -/
theorem exists_sound (hclosed : t.Closed) {number : Nat → Prop}
    (hleaf : ∀ x i n, t.slot ⟨x, i⟩ = .leaf n → number n ∧ n < invalidWord.toNat) {j : Nat}
    {w : UInt32} (hw : table.body[j]? = some w) :
    ∃ x < t.size, t.startIn order x ≤ j ∧ j < t.endIn order x ∧ t.Sound order number x w := by
  obtain ⟨x, i, hx, hi, rfl⟩ := h.exists_run (Array.getElem?_eq_some_iff.mp hw).1
  rw [h.getElem?_body hx hi, Option.some.injEq] at hw
  exact ⟨x, hx, Nat.le_add_right _ _, Nat.add_lt_add_left hi _,
    hw ▸ h.sound_slot hclosed (hleaf x i)⟩

end WrittenAs

/-! ## Tries that may have been collapsed -/

theorem kind_root_collapseIf {t : Trie} (h : t.kind root = .opcode) (collapse : Bool) :
    (t.collapseIf collapse).kind root = .opcode := by
  cases collapse with
  | false => exact h
  | true =>
    have hkeeps : ¬ (t.node root).ignoresMode = true := by
      intro hi
      rw [kind, (Node.ignoresMode_iff.mp hi).1] at h
      cases h
    rw [collapseIf, if_pos rfl, kind, node_collapse, Node.collapse_of_not_ignoresMode hkeeps]
    exact h

theorem slot_of_slot_collapseIf {t : Trie} {collapse : Bool} {p : Position} {s : Slot}
    (h : (t.collapseIf collapse).slot p = s) (hs : s ≠ .empty) : t.slot p = s := by
  cases collapse with
  | false => exact h
  | true => exact slot_of_slot_collapse h hs

theorem slotAt_of_slotAt_collapseIf {t : Trie} {collapse : Bool} {path : List Nat} {s : Slot}
    (h : (t.collapseIf collapse).slotAt path = s) (hs : s ≠ .empty) : t.slotAt path = s := by
  cases collapse with
  | false => exact h
  | true => exact slotAt_of_slotAt_collapse h hs

theorem Within.collapseIf {t : Trie} {bound : Nat} {x : NodeId} (h : t.Within bound x)
    (collapse : Bool) : (t.collapseIf collapse).Within bound x := by
  cases collapse with
  | false => exact h
  | true => exact h.collapse

theorem Closed.collapseIf {t : Trie} (h : t.Closed) (collapse : Bool) :
    (t.collapseIf collapse).Closed := by
  cases collapse with
  | false => exact h
  | true => exact h.collapse

end Trie

/-- Every number in the trie is that of an encoding which a history inserts. -/
theorem Build.Holds.exists_insertion_of_slot {c : Catalog} {b : Build} {held : List Holding}
    (h : Holds c b held) (hc : c.Numbered) {steering : Steering} {history : List Insertion}
    (hleft : ∀ a ∈ held, ∃ i ∈ history, i.Leaves c steering a) {p : Position} {n : Nat}
    (hp : b.trie.slot p = .leaf n) :
    n < c.encodings.size ∧ ∃ i ∈ history, i.number = n := by
  obtain ⟨x, hx, rfl⟩ := h.exists_claim_of_slot hp
  refine ⟨number_lt_of_mem_claims hc hleft hx, ?_⟩
  obtain ⟨i, hi, e, he, hn, -⟩ := exists_insertion_of_mem_claims hleft hx
  exact ⟨i, hi, by rw [hn, hc.number_eq he]⟩

/-- **What flattening writes**, after any history of insertions, failing ones included, with ModRM
tables collapsed or not, when the words fit: the runs of all nodes, each once, with as many words as
the node has slots. The run of the root is last, and the root reference is to it. Every word lies in
a run and refers to a run that has ended before that run starts, or stands for no encoding, or is
the number of an encoding whose insertion was attempted. So the number of words follows from the
numbers of nodes. -/
theorem written_flatten (steps : List CatalogStep) (options : Options) (history : List Insertion)
    (collapse : Bool) {table : FlatTable}
    (hflat : (Build.after (Catalog.after steps) ((Catalog.after steps).steering options)
      history).trie.flatten collapse = some table) :
    let c := Catalog.after steps
    let t := (Build.after c (c.steering options) history).trie.collapseIf collapse
    ∃ order : List NodeId, order.Perm (List.range t.size) ∧
      table.body.toList = order.flatMap (t.runIn order) ∧
      (∀ x, (t.runIn order x).length = (t.kind x).slotCount) ∧
      order.getLast? = some Trie.root ∧ table.root = ⟨.opcode, table.body.size - 256⟩ ∧
      (∀ j w, table.body[j]? = some w →
        ∃ x < t.size, t.startIn order x ≤ j ∧ j < t.endIn order x ∧
          t.Sound order (fun n ↦ n < c.encodings.size ∧ ∃ i ∈ history, i.number = n) x w) ∧
      table.body.size = 256 * (t.count .opcode + t.count .suffix) + 6 * t.count .prefixes +
        32 * t.count .modrm + 8 * (t.count .regOnly + t.count .rm) + 2 * t.count .rexW := by
  intro c t
  have hc : c.Numbered := Catalog.numbered_after steps
  obtain ⟨held, hheld, hleft⟩ := Build.exists_holds c (c.steering options) history
  obtain ⟨order, h⟩ := hheld.wellLinked.exists_writtenAs hflat
  refine ⟨order, h.perm, h.body_eq, t.length_runIn order, h.root_last,
    h.root_eq_sub (Trie.kind_root_collapseIf hheld.wellLinked.kind_root collapse), fun j w ↦ ?_,
    h.size_body_eq_words_range.trans t.words_range⟩
  refine h.exists_sound (hheld.wellLinked.closed.collapseIf collapse) fun x i n hn ↦ ?_
  have hnumber := hheld.exists_insertion_of_slot hc hleft
    (Trie.slot_of_slot_collapseIf hn Slot.noConfusion)
  exact ⟨hnumber, Nat.lt_of_lt_of_le hnumber.1 hc.size_le⟩

theorem written_flatten_takenMode :
    let c := Catalog.after takenMode
    let b := Build.after c (c.steering {}) [takeLastMode, takeEveryMode]
    let t := b.trie.collapseIf true
    ¬ Build.Accepts c (c.steering {}) [takeLastMode, takeEveryMode] ∧
      ∃ (table : FlatTable) (order : List NodeId), b.trie.flatten true = some table ∧
        order.Perm (List.range t.size) ∧ table.body.toList = order.flatMap (t.runIn order) ∧
        table.body.size = 288 ∧ table.root = ⟨.opcode, 32⟩ := by
  intro c b t
  have hfails : ¬ Build.Accepts c (c.steering {}) [takeLastMode, takeEveryMode] := by
    decide +kernel
  have hsize : (b.trie.flatten true).map (fun table ↦ table.body.size) = some 288 := by
    decide +kernel
  cases hflat : b.trie.flatten true with
  | none => rw [hflat] at hsize; cases hsize
  | some table =>
    rw [hflat, Option.map_some, Option.some.injEq] at hsize
    obtain ⟨order, hperm, hbody, -, -, hroot, -⟩ :=
      written_flatten takenMode {} [takeLastMode, takeEveryMode] true hflat
    exact ⟨hfails, table, order, rfl, hperm, hbody, hsize, by rw [hroot, hsize]⟩

end DecodeTrie
