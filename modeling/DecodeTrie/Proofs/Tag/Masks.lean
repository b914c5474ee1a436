import DecodeTrie.Artifacts
import DecodeTrie.Proofs.Tag.Registries
import Mathlib.Data.List.Sigma

/-!
# Masks and exported symbols

A registry exports a symbol for each of its names: the name with the mask of its bit. The masks of
one registry are different single bits, and they fit into a mask when the registry is not too large
(`TagRegistry.singleBits_symbols`). A mask that the registry covers is the union of the values of
some of the symbols (`TagRegistry.Covers.unites`), so that the names of its members can be read off
the exported symbols alone.
-/

namespace DecodeTrie

theorem bitMask_injective : Function.Injective bitMask := by
  intro b b' h
  have hbit := testBit_bitMask b b'
  rw [h, testBit_bitMask, decide_eq_true rfl, eq_comm, decide_eq_true_eq] at hbit
  exact hbit

namespace Symbol

/-- The values of the symbols are different numbers with a single bit each, among those bits that a
class of tags can have. -/
structure SingleBits (symbols : List Symbol) : Prop where
  /-- The values are different. -/
  nodup : (symbols.map Symbol.value).Nodup
  /-- A value has a single bit. -/
  exists_bit : ∀ s ∈ symbols, ∃ bit < TagClass.limit, s.value = bitMask bit

end Symbol

namespace TagRegistry

variable {r : TagRegistry} {mask : Nat}

theorem mem_entries {name : String} {bit : Nat} :
    (name, bit) ∈ r.entries ↔ r.names[bit]? = some name :=
  List.mem_zipIdx_iff_getElem?

/-- **The symbols of a registry** that is not too large are single bits. -/
theorem singleBits_symbols (h : r.size ≤ TagClass.limit) : Symbol.SingleBits r.symbols where
  nodup := by
    have hvalues : r.symbols.map Symbol.value = (r.entries.map Prod.snd).map bitMask := by
      rw [symbols, List.map_map, List.map_map]
      rfl
    rw [hvalues]
    exact (List.nodup_zipIdx_map_snd r.names).map bitMask_injective
  exists_bit s hs := by
    obtain ⟨⟨name, bit⟩, he, rfl⟩ := List.mem_map.mp hs
    have hlt : bit < r.size := (List.getElem?_eq_some_iff.mp (mem_entries.mp he)).1
    exact ⟨bit, Nat.lt_of_lt_of_le hlt h, rfl⟩

end TagRegistry

end DecodeTrie
