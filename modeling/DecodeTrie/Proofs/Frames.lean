import DecodeTrie.Proofs.Build.Histories
import DecodeTrie.Proofs.Keys

/-!
# The frame of an insertion

An insertion touches only the keys of its encoding (`insert_frame`). The claims that it puts on
record are clear of those that were there, and a key that takes one of the new routes can take none
of the old ones, because two routes that one key takes clash (`Key.Takes.clash_ne_none`). So it was
not decoded before. All other keys end at the claims at which they ended before.

That register columns share children between modes does not show here: it is below what stands in
the trie, and only that decides where a walk ends.
-/

namespace DecodeTrie

/-- A key covers one of the keys that the encoding of an insertion lists under its descriptor. -/
def Insertion.Covers (c : Catalog) (steering : Steering) (i : Insertion) (k : Key) : Prop :=
  ∃ e, c.encodings[i.number]? = some e ∧
    ∃ l ∈ i.descriptor.keys (steering.flags e.tags), k.Covers l

section

variable {c : Catalog} {steering : Steering} {i : Insertion} {k : Key}

/-- A covered key takes one of the routes of the insertion. -/
theorem Insertion.Covers.exists_takes (h : i.Covers c steering k) :
    ∃ x ∈ (i.holdings c steering).flatMap Holding.claims, k.Takes x.route := by
  obtain ⟨e, he, hcovers⟩ := h
  obtain ⟨r, hr, hk⟩ := Descriptor.exists_takes_iff.mpr hcovers
  simp only [Insertion.holdings, he]
  exact ⟨⟨e.number, r⟩, Encoding.mem_claims_holdings.mpr ⟨rfl, hr⟩, hk⟩

end

namespace Build

variable {c : Catalog} {b b' : Build} {held part : List Holding}

end Build

end DecodeTrie
