import DecodeTrie.Proofs.Collapsing
import DecodeTrie.Proofs.Ranges
import DecodeTrie.Proofs.Tag.Masks

/-!
# Artifacts agree with one another

A compilation makes its artifacts in different places. The ranges of the instructions have grown
leaf by leaf, the descriptors have been read one by one, the numbers in the table come out of the
trie, and the symbols are what the registries have become when the catalog was complete. All of them
fit together (`agree_of_compile`).

The ranges turn out to be the blocks of the catalog: a run that succeeds has placed every encoding
(`Build.ranges_of_run`), and the encodings of an instruction are those in its block.
-/

namespace DecodeTrie

open EncodingRange (Spans)

/-! ## Blocks as ranges -/

namespace Instruction

/-- The block of an instruction as a range, if it has encodings. -/
def block (insn : Instruction) : Option EncodingRange :=
  if insn.first < insn.stop then some ⟨insn.first, insn.stop - 1⟩ else none

theorem block_eq_some_iff {insn : Instruction} {r : EncodingRange} :
    insn.block = some r ↔ r.first = insn.first ∧ r.first ≤ r.last ∧ r.last + 1 = insn.stop := by
  obtain ⟨first, last⟩ := r
  rw [block]
  split
  · rw [Option.some.injEq, EncodingRange.mk.injEq]
    dsimp only
    omega
  · exact iff_of_false (Option.some_ne_none _).symm (by dsimp only; omega)

/-- The numbers in the range of a block. -/
theorem exists_block_iff {insn : Instruction} {n : Nat} :
    (∃ r, insn.block = some r ∧ r.first ≤ n ∧ n ≤ r.last) ↔ insn.first ≤ n ∧ n < insn.stop := by
  simp only [block_eq_some_iff]
  constructor
  · rintro ⟨r, ⟨hfirst, -, hstop⟩, hn⟩
    omega
  · rintro ⟨hfirst, hstop⟩
    exact ⟨⟨insn.first, insn.stop - 1⟩, ⟨rfl, by dsimp only; omega, by dsimp only; omega⟩, hfirst,
      by dsimp only; omega⟩

theorem spans_block (insn : Instruction) :
    Spans {n | insn.first ≤ n ∧ n < insn.stop} insn.block := by
  rw [block]
  split
  · next h =>
    exact ⟨⟨⟨Nat.le_refl _, h⟩, fun n hn ↦ hn.1⟩,
      ⟨by dsimp only; exact ⟨by omega, by omega⟩, fun n hn ↦ Nat.le_sub_one_of_lt hn.2⟩⟩
  · next h =>
    refine Set.eq_empty_of_forall_notMem fun n hn ↦ h ?_
    exact Nat.lt_of_le_of_lt hn.1 hn.2

end Instruction

/-- The encodings of an instruction are those in its block. -/
theorem Catalog.WellFormed.exists_encoding_iff {c : Catalog} (hc : c.WellFormed) {i n : Nat}
    {insn : Instruction} (hinsn : c.instructions[i]? = some insn) :
    (∃ e, c.encodings[n]? = some e ∧ e.insn = i) ↔ insn.first ≤ n ∧ n < insn.stop := by
  constructor
  · rintro ⟨e, he, howner⟩
    obtain ⟨insn', hinsn', hn⟩ := (hc.insn_eq_iff he i).mp howner
    obtain rfl := Option.some.inj (hinsn.symm.trans hinsn')
    exact hn
  · intro hn
    have hstop := hc.tile.stop_le.2 insn (Array.mem_toList_iff.mpr (Array.mem_of_getElem? hinsn))
    have he : c.encodings[n]? = some c.encodings[n] :=
      Array.getElem?_eq_getElem (Nat.lt_of_lt_of_le hn.2 hstop)
    exact ⟨_, he, (hc.insn_eq_iff he i).mpr ⟨insn, hinsn, hn⟩⟩

/-! ## The ranges of a run -/

namespace Build

variable {c : Catalog} {steering : Steering} {ds : List Descriptor} {b : Build}

/-- The numbers of the sites of an instruction are those of its encodings, when everything has been
placed. -/
theorem mem_numbersOf_of_run (hc : c.Numbered)
    (hds : List.Forall₂ (fun e d ↦ c.descriptor e = .ok d) c.encodings.toList ds) {i n : Nat} :
    n ∈ Holding.numbersOf ((List.zipWith Encoding.insertion c.encodings.toList ds).flatMap
        (Insertion.holdings c steering)) i ↔
      ∃ e, c.encodings[n]? = some e ∧ e.insn = i := by
  simp only [Holding.numbersOf, Set.mem_ofPred_eq,
    mem_holdings_of_run steering (fun e he ↦ hc.getElem?_number he) hds]
  constructor
  · rintro ⟨a, ⟨e, he, d, -, ha⟩, rfl, rfl⟩
    obtain ⟨s, -, rfl⟩ := List.mem_map.mp ha
    exact ⟨e, hc.getElem?_number he, rfl⟩
  · rintro ⟨e, he, rfl⟩
    have hmem : e ∈ c.encodings.toList := Array.mem_toList_iff.mpr (Array.mem_of_getElem? he)
    obtain ⟨d, hd⟩ := exists_descriptor_of_run hds hmem
    obtain ⟨s, hs⟩ := List.exists_mem_of_ne_nil _ (d.sites_ne_nil (steering.flags e.tags))
    exact ⟨⟨e.number, e.insn, s⟩, ⟨e, hmem, d, hd, List.mem_map_of_mem hs⟩, rfl, hc.number_eq he⟩

/-- **The ranges of a run** that succeeds are the blocks of the instructions. -/
theorem ranges_of_run (hc : c.WellFormed)
    (hrun : insertAll c steering c.encodings.toList (empty c) = .ok ds b) :
    b.ranges.toList = c.instructions.toList.map Instruction.block := by
  obtain ⟨hds, hlist⟩ := insertAll_ok hrun
  have hranges := (records_of_insertList (records_empty c) hlist).ranges_eq
  rw [List.nil_append] at hranges
  refine List.ext_getElem? fun i ↦ ?_
  rw [Array.getElem?_toList, List.getElem?_map, Array.getElem?_toList]
  cases hinsn : c.instructions[i]? with
  | none =>
    rw [Array.getElem?_eq_none_iff] at hinsn
    rw [Option.map_none, Array.getElem?_eq_none_iff, hranges, Holding.size_ranges]
    exact hinsn
  | some insn =>
    obtain ⟨r, hr, hspans⟩ :=
      Holding.spans_ranges c ((List.zipWith Encoding.insertion c.encodings.toList ds).flatMap
        (Insertion.holdings c steering)) (Array.getElem?_eq_some_iff.mp hinsn).1
    have hnumbers : Holding.numbersOf ((List.zipWith Encoding.insertion c.encodings.toList
        ds).flatMap (Insertion.holdings c steering)) i =
          {n | insn.first ≤ n ∧ n < insn.stop} := by
      ext n
      rw [mem_numbersOf_of_run hc.numbered hds, hc.exists_encoding_iff hinsn, Set.mem_ofPred_eq]
    rw [hnumbers] at hspans
    rw [hranges, hr, Option.map_some, hspans.unique insn.spans_block]

end Build

/-! ## Rows -/

namespace Artifacts

/-- The artifacts list what is in a catalog, in the same order. -/
structure Lists (c : Catalog) (a : Artifacts) : Prop where
  /-- There is a row for each instruction. Its range is the block of the instruction. -/
  instructions_eq : a.instructions = c.instructions.toList.map fun insn ↦ insn.row insn.block
  /-- There is a row for each encoding. Its descriptor is read from the pattern of the encoding, and
  so are its bit-field codes. -/
  encodings : List.Forall₂
    (fun e row ↦ ∃ d, Descriptor.parse e.opcode = .ok d ∧ row = e.row d ∧ row.packed = d.packed)
    c.encodings.toList a.encodings
  /-- The symbols are those of the catalog. -/
  symbols_eq : a.symbols = c.symbols

variable {c : Catalog} {a : Artifacts}

/-- The rows of encodings whose patterns have been read. -/
theorem forall₂_rows {es : List Encoding} {ds : List Descriptor}
    (hds : List.Forall₂ (fun e d ↦ c.descriptor e = .ok d) es ds) :
    List.Forall₂
      (fun e row ↦ ∃ d, Descriptor.parse e.opcode = .ok d ∧ row = e.row d ∧ row.packed = d.packed)
      es (List.zipWith Encoding.row es ds) := by
  induction hds with
  | nil => exact .nil
  | @cons e d es ds hd _ ih =>
    exact .cons ⟨d, Catalog.descriptor_eq_ok_iff.mp hd, rfl, rfl⟩ ih

/-- A compilation that succeeds lists the catalog. -/
theorem lists_of_compile (hc : c.WellFormed) {options : Options} (h : compile c options = .ok a) :
    a.Lists c := by
  obtain ⟨ds, b, hrun, -⟩ := run_of_compile h
  simp only [compile, hrun] at h
  split at h
  · cases h
  · cases h
    refine ⟨?_, forall₂_rows (Build.insertAll_ok hrun).1, rfl⟩
    rw [assemble, Build.ranges_of_run hc hrun, List.zipWith_map_right, List.zipWith_self]

namespace Lists

variable (h : a.Lists c)

include h

theorem length_encodings : a.encodings.length = c.encodings.size := h.encodings.length_eq.symm

theorem exists_encoding {n : Nat} {row : EncodingRow} (hrow : a.encodings[n]? = some row) :
    ∃ e d, c.encodings[n]? = some e ∧ row = e.row d := by
  obtain ⟨hn, rfl⟩ := List.getElem?_eq_some_iff.mp hrow
  have hn' := h.length_encodings ▸ hn
  obtain ⟨d, -, hd, -⟩ := h.encodings.get hn' hn
  exact ⟨_, d, Array.getElem?_eq_getElem hn', hd⟩

/-- An encoding belongs to the instruction in whose range its number is. -/
theorem insn_eq_iff (hc : c.WellFormed) {n : Nat} {row : EncodingRow}
    (hrow : a.encodings[n]? = some row) (i : Nat) :
    row.insn = i ↔ ∃ owner r, a.instructions[i]? = some owner ∧ owner.encodings = some r ∧
      r.first ≤ n ∧ n ≤ r.last := by
  obtain ⟨e, d, he, rfl⟩ := h.exists_encoding hrow
  rw [Encoding.row, hc.insn_eq_iff he i, h.instructions_eq]
  simp only [List.getElem?_map, Array.getElem?_toList, Option.map_eq_some_iff]
  constructor
  · rintro ⟨insn, hinsn, hn⟩
    obtain ⟨r, hblock, hr⟩ := Instruction.exists_block_iff.mpr hn
    exact ⟨_, r, ⟨insn, hinsn, rfl⟩, hblock, hr⟩
  · rintro ⟨_, r, ⟨insn, hinsn, rfl⟩, hblock, hr⟩
    exact ⟨insn, hinsn, Instruction.exists_block_iff.mp ⟨r, hblock, hr⟩⟩

end Lists

end Artifacts

end DecodeTrie
