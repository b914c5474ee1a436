import DecodeTrie.Catalog.Step
import DecodeTrie.Compile
import DecodeTrie.Proofs.Build.Insertions
import DecodeTrie.Proofs.Table.Renamed

/-!
# The order of insertions

Insertions that succeed one after the other succeed in every other order, with the same ranges and
the same flat tables (`insertList_perm`). Whether they succeed is a property of pairs, and the
ranges are least upper bounds. The tries are not the same, because nodes are numbered as they are
made and children of columns are copied when an encoding asks for one mode; but what stands in them
and which modes share is decided by the sites on record, whose order does not matter.
-/

namespace DecodeTrie

namespace Holding

theorem mem_claims_perm {held held' : List Holding} (h : held.Perm held') (x : Claim) :
    x ∈ held.flatMap claims ↔ x ∈ held'.flatMap claims :=
  (h.flatMap_right claims).mem_iff

theorem pins_perm {held held' : List Holding} (h : held.Perm held') : pins held = pins held' := by
  funext c reg m
  simp only [pins, h.mem_iff]

end Holding

namespace Build

variable {c : Catalog} {b b' : Build} {held held' : List Holding}

/-- What stands in the trie does not depend on the order of the sites. -/
theorem Records.view_eq (h : Records c b held) (h' : Records c b' held') (hp : held.Perm held') :
    b.trie.view = b'.trie.view := by
  funext path
  refine Option.ext fun v ↦ ?_
  rw [h.view, h'.view]
  simp only [Holding.mem_claims_perm hp]

/-- **Builds with the same sites on record** have the same ranges and the same flat tables. -/
theorem Records.eq_of_perm (h : Records c b held) (h' : Records c b' held')
    (hp : held.Perm held') :
    b.ranges = b'.ranges ∧ ∀ collapse, b.trie.flatten collapse = b'.trie.flatten collapse := by
  refine ⟨by rw [h.ranges_eq, h'.ranges_eq, Holding.ranges_perm c hp], fun collapse ↦ ?_⟩
  have hsharing := h.sharing
  rw [Holding.pins_perm hp] at hsharing
  have hrenaming := Trie.renaming_of_sharing h.wellLinked h'.wellLinked hsharing h'.sharing
    (h.view_eq h' hp)
  exact hrenaming.flatten_eq h.wellLinked.within_root h'.wellLinked.within_root collapse

/-- **The order of insertions does not matter.** When insertions into a fresh build succeed at every
step, they do so in every other order, and both builds have the same ranges and, word for word, the
same flat tables, collapsed or not. -/
theorem insertList_perm (c : Catalog) (options : Options) {history history' : List Insertion}
    (hp : history.Perm history') {b : Build}
    (hok : insertList c (c.steering options) history (empty c) = .ok () b) :
    ∃ b', insertList c (c.steering options) history' (empty c) = .ok () b' ∧
      b'.ranges = b.ranges ∧ ∀ collapse, b'.trie.flatten collapse = b.trie.flatten collapse := by
  -- What has to hold for success is a property of each insertion and of each pair.
  obtain ⟨hall, hpairs⟩ := accepts_iff.mp ⟨b, hok⟩
  obtain ⟨b', hok'⟩ := accepts_iff.mpr ⟨fun i hi ↦ hall i (hp.mem_iff.mpr hi),
    (hp.pairwise_iff fun h ↦ h.symm).mp hpairs⟩
  have hrec := records_of_insertList (records_empty c) hok
  have hrec' := records_of_insertList (records_empty c) hok'
  rw [List.nil_append] at hrec hrec'
  exact ⟨b', hok', hrec'.eq_of_perm hrec (hp.symm.flatMap_right _)⟩

/-- A catalog with an encoding for all modes of a register column, and one for a single mode. -/
def sharedColumn : List CatalogStep :=
  [.add { name := "wide", encodings := [{ opcode := "8d /1 /rm_3" }] },
    .add { name := "narrow", encodings := [{ opcode := "8d /1 /mod_2 /rm_5" }] }]

/-- The insertions of the encodings of `sharedColumn`, in the order of their numbers. -/
def sharedColumnInsertions : List Insertion :=
  (Catalog.after sharedColumn).encodings.toList.filterMap fun e ↦
    (Descriptor.parse e.opcode).toOption.map (Insertion.mk e.number)

theorem insertList_perm_sharedColumn :
    let c := Catalog.after sharedColumn
    sharedColumnInsertions.map Insertion.number = [0, 1] ∧
      ∃ b b', insertList c (c.steering {}) sharedColumnInsertions (empty c) = .ok () b ∧
        insertList c (c.steering {}) sharedColumnInsertions.reverse (empty c) = .ok () b' ∧
        b'.ranges = b.ranges ∧ b'.trie.flatten false = b.trie.flatten false := by
  intro c
  have hnumbers : sharedColumnInsertions.map Insertion.number = [0, 1] := by decide +kernel
  have haccepts : Accepts c (c.steering {}) sharedColumnInsertions := by decide +kernel
  obtain ⟨b, hb⟩ := haccepts
  obtain ⟨b', hb', hranges, hflat⟩ :=
    insertList_perm c {} sharedColumnInsertions.reverse_perm.symm hb
  exact ⟨hnumbers, b, b', hb, hb', hranges, hflat false⟩

end Build

end DecodeTrie
