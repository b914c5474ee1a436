import DecodeTrie.Proofs.Shape
import DecodeTrie.Proofs.Trie.Apart
import DecodeTrie.Proofs.Trie.CopyRuns

/-!
# Copies are faithful and detached

The copy of a subtree answers every key as the original does, and it has no node in common with what
was there before (`FaithfulCopy`). It stands apart for good, and so a write below the copy never
changes what a key reads that does not come to the copy.

This holds of every node of every trie that insertions make (`faithfulCopy_after`).
-/

namespace DecodeTrie

namespace Trie

/-! ## Faithful copies -/

/-- A trie `t'` and a node `copy` of it are what a faithful copy of the node `id` of the trie `t`
comes to its end with. -/
structure FaithfulCopy (t : Trie) (id : NodeId) (t' : Trie) (copy : NodeId) : Prop where
  /-- The recursion that copies the node comes to this end, and to no other one. -/
  ends : ∀ u y, t.Copies id u y ↔ u = t' ∧ y = copy
  /-- The nodes that were there are what they were. -/
  kept : ∀ x < t.size, t'.node x = t.node x
  /-- The new nodes are the copy and what is below it: the children of a node come in the order of
  its slots, and before the node. -/
  postorder : t'.Postorder [copy] (newNodes t t')
  /-- The copy is the last node. -/
  last : t'.size = copy + 1
  /-- The copy has new nodes only. -/
  new : ∀ x, t'.Below copy x ↔ t.size ≤ x ∧ x < t'.size
  /-- The nodes that were there refer to each other only. -/
  old : ∀ x < t.size, ∀ y, t'.Below x y → y < t.size
  /-- A key reads from the copy what it reads from the original. -/
  reads : ∀ k r, t'.Reads copy k r ↔ t.Reads id k r
  /-- A walk from the copy gives what the walk from the original gives, which is what the key
  reads. -/
  walks : ∀ k, t'.walkWithin t'.size copy k = t.walkWithin t.size id k ∧
    t.Reads id k (t.walkWithin t.size id k)
  /-- A reference from an old node to the copy, and placing a number anywhere, are among what may
  happen next. -/
  later : ∀ u, Later t.size copy t' u →
    (∀ p, p.node < t.size → Later t.size copy t' (u.set p (.node copy))) ∧
      ∀ number p steps, Later t.size copy t' (behind (place number p steps u))
  /-- Whatever has happened since, no old node is below the copy. -/
  apart : ∀ u, Later t.size copy t' u → ∀ x < t.size, ¬ u.Below copy x
  /-- Whatever has happened since, a write below the copy changes nothing for the keys that do not
  come to the copy. -/
  frame : ∀ u, Later t.size copy t' u → ∀ p s, u.Below copy p.node →
    ∀ x k, ¬ u.Below copy x → ¬ u.Visits x k copy →
      ∀ r, (u.set p s).Reads x k r ↔ u.Reads x k r

/-- **Copies are faithful** where references are in order. -/
theorem WellLinked.faithfulCopy {t : Trie} (h : t.WellLinked) {id : NodeId} (hid : id < t.size) :
    FaithfulCopy t id (t.copySubtree id).1 (t.copySubtree id).2 := by
  obtain ⟨path, hpath⟩ := h.reached hid
  have hb : t.Within t.size id := h.within_size hpath
  have hcopy : IsCopy t (t.copySubtree id).1 id (t.copySubtree id).2 := h.isCopy_copySubtree hpath
  have hends (u : Trie) (y : NodeId) : t.Copies id u y ↔ t.copySubtree id = (u, y) :=
    copies_iff h.closed hid hb
  generalize t.copySubtree id = made at hcopy hends
  have hreads (k : Key) (r : Option Nat) : made.1.Reads made.2 k r ↔ t.Reads id k r :=
    reads_iff_of_view hcopy.view
  have hb' : made.1.Within made.1.size made.2 :=
    hcopy.within hcopy.size_le (by rw [hcopy.size_eq]; exact Nat.lt_succ_self _)
  have hstart : made.1.Apart t.size made.2 := hcopy.apart h.closed
  exact {
    ends := fun u y ↦ by
      rw [hends, Prod.ext_iff]
      exact and_congr eq_comm eq_comm
    kept := fun x ↦ hcopy.appends.node_eq
    postorder := ((hends _ _).mpr rfl).postorder
    last := hcopy.size_eq
    new := hcopy.below_iff
    old := fun x hx y ↦ hcopy.lt_size_of_below h.closed hx
    reads := hreads
    walks := fun k ↦
      ⟨(walkWithin_eq_iff_reads hb').mpr ((hreads k _).mpr (reads_walkWithin hb k)),
        reads_walkWithin hb k⟩
    later := fun u hu ↦
      ⟨fun p hp ↦ hu.link hstart ((hu.apart hstart).not_below hp),
        fun number p steps ↦ keeps_place hstart number p steps u hu⟩
    apart := fun u hu x ↦ (hu.apart hstart).not_below
    frame := fun u hu p s hp x k hx hvisits ↦
      (hu.apart hstart).entered.reads_set_iff hp s hx hvisits }

end Trie

/-- **Every copy is faithful**, whichever node it is of, and whatever history of insertions has made
the trie, failing ones included. -/
theorem faithfulCopy_after (steps : List CatalogStep) (options : Options)
    (history : List Insertion) :
    let c := Catalog.after steps
    let t := (Build.after c (c.steering options) history).trie
    ∀ id < t.size, t.FaithfulCopy id (t.copySubtree id).1 (t.copySubtree id).2 := by
  intro c t id hid
  obtain ⟨held, hheld, -⟩ := Build.exists_holds c (c.steering options) history
  exact hheld.wellLinked.faithfulCopy hid

/-! ## A child that is detached -/

/-- A catalog whose first encoding makes an r/m table that all modes of a register column share,
and whose second encoding takes one of these modes. -/
def sharedChild : List CatalogStep :=
  [.add { name := "any", encodings := [{ opcode := "0f 01 /2 /rm_1" }] },
    .add { name := "reg", encodings := [{ opcode := "0f 01 /2 /mod_3 /rm_2" }] }]

/-- The insertion of the first encoding of `sharedChild`. -/
def shareChild : Insertion :=
  ⟨0, .optional, .optional, .twoByte 0x01 none, some ⟨.only ⟨2, by decide⟩, .any⟩,
    some ⟨1, by decide⟩⟩

theorem faithfulCopy_after_sharedChild :
    let c := Catalog.after sharedChild
    let t := (Build.after c (c.steering {}) [shareChild]).trie
    let made := (t.copySubtree 3).1
    let linked := made.set (Trie.cell 2 2 3) (.node 4)
    let written := linked.set ⟨4, 2⟩ (.leaf 1)
    let memory : Key := { opcode := [0x0f, 0x01], modrm := some 0x12 }
    let register : Key := { opcode := [0x0f, 0x01], modrm := some 0xd2 }
    3 < t.size ∧ t.FaithfulCopy 3 made 4 ∧ written.walk register = some 1 ∧
      ∀ r, written.Reads Trie.root memory r ↔ linked.Reads Trie.root memory r := by
  intro c t made linked written memory register
  have hid : 3 < t.size := by decide +kernel
  have hnumber : (t.copySubtree 3).2 = 4 := by decide +kernel
  have hcopy : t.FaithfulCopy 3 made 4 := by
    rw [← hnumber]
    exact faithfulCopy_after sharedChild {} [shareChild] 3 hid
  refine ⟨hid, hcopy, by decide +kernel, ?_⟩
  have hroot : Trie.root < t.size := Nat.lt_trans (by decide) hid
  have hlinked : Trie.Later t.size 4 made linked :=
    (hcopy.later made .start).1 (Trie.cell 2 2 3) (Nat.lt_trans (by decide) hid)
  let tail : Key := { memory with opcode := [] }
  refine hcopy.frame linked hlinked ⟨4, 2⟩ (.leaf 1) (.refl linked 4) Trie.root memory
    (hcopy.apart linked hlinked Trie.root hroot) ?_
  -- The key comes to the root, the tables 1 and 2 and, at mode 0, the original.
  have hroute :
      memory.choose (linked.kind Trie.root) = some (0x0f, { memory with opcode := [0x01] }) ∧
        linked.slot ⟨Trie.root, 0x0f⟩ = .node 1 ∧
      Key.choose { memory with opcode := [0x01] } (linked.kind 1) = some (0x01, tail) ∧
        linked.slot ⟨1, 0x01⟩ = .node 2 ∧
      tail.choose (linked.kind 2) = some (2, tail) ∧ linked.slot ⟨2, 2⟩ = .node 3 ∧
      tail.choose (linked.kind 3) = some (2, tail) ∧ linked.slot ⟨3, 2⟩ = .empty := by
    decide +kernel
  obtain ⟨h0, hs0, h1, hs1, h2, hs2, h3, hs3⟩ := hroute
  intro hvisits
  have hlast : linked.Visits 3 tail 4 :=
    ((hvisits.tail (by decide) h0 hs0).tail (by decide) h1 hs1).tail (by decide) h2 hs2
  cases hlast with
  | next hk hs _ =>
    rw [h3] at hk
    cases hk
    rw [hs3] at hs
    cases hs

end DecodeTrie
