import DecodeTrie.Proofs.Table.Runs
import DecodeTrie.Proofs.Trie.Placing
import DecodeTrie.Proofs.Trie.Walks

/-!
# The tables that a look-up visits

A look-up goes from table to table. `FlatTable.Visits` says to which ones, and the look-up from any
of them gives what the whole one gives (`Visits.exists_lookupWithin_eq`). Where a flat table writes
out a collapsed trie, a key that takes the tables of a route ahead of ModRM visits the runs of the
nodes on the route (`visits_collapse`).
-/

namespace DecodeTrie

namespace FlatTable

/-- A look-up of a key that starts at one table comes to another one. -/
inductive Visits (t : FlatTable) : TableRef → Key → TableRef → Prop
  /-- The table at which it starts. -/
  | here (r : TableRef) (k : Key) : Visits t r k r
  /-- The tables that are visited from the next one on. -/
  | next {r r' r'' : TableRef} {k k' : Key} {i : Nat} (hchoose : k.choose r.kind = some (i, k'))
    (hentry : t.entry r i = some (.table r')) (hrest : Visits t r' k' r'') : Visits t r k r''

/-- From a table that it visits a look-up goes on as if it had started there. -/
theorem Visits.exists_lookupWithin_eq {t : FlatTable} {r r' : TableRef} {k : Key}
    (h : t.Visits r k r') :
    ∃ k' steps, ∀ bound, t.lookupWithin (bound + steps) r k = t.lookupWithin bound r' k' := by
  induction h with
  | here r k => exact ⟨k, 0, fun bound ↦ rfl⟩
  | @next r r' r'' k k' i hchoose hentry _ ih =>
    obtain ⟨k'', steps, hsteps⟩ := ih
    refine ⟨k'', steps + 1, fun bound ↦ ?_⟩
    rw [← Nat.add_assoc, lookupWithin, hchoose]
    simp only [hentry]
    exact hsteps bound

end FlatTable

namespace Trie

/-- The entry of a slot in the run of a node is what the slot holds. -/
theorem WrittenAs.entry_eq {t : Trie} {order : List NodeId} {table : FlatTable}
    (h : t.WrittenAs order table) (hclosed : t.Closed) {x : NodeId} {i : Nat} (hx : x < t.size)
    (hi : i < (t.kind x).slotCount)
    (hfit : ∀ n, t.slot ⟨x, i⟩ = .leaf n → n < invalidWord.toNat) :
    table.entry (t.refIn order x) i = some (t.entryIn order (t.slot ⟨x, i⟩)) := by
  have hi' : i < (t.refIn order x).kind.slotCount := hi
  rw [FlatTable.entry, if_pos hi', refIn, h.getElem?_body hx hi, Option.bind_some]
  cases hs : t.slot ⟨x, i⟩ with
  | empty => exact Entry.unpack_invalidWord
  | leaf n => exact Entry.unpack_pack (e := .encoding n) (hfit n hs)
  | node y => exact h.unpack_refIn (hclosed hs)

theorem WrittenAs.entry_refIn {t : Trie} {order : List NodeId} {table : FlatTable}
    (h : t.WrittenAs order table) (hclosed : t.Closed) {x y : NodeId} {i : Nat}
    (hy : t.slot ⟨x, i⟩ = .node y) :
    table.entry (t.refIn order x) i = some (.table (t.refIn order y)) := by
  obtain ⟨hx, hi⟩ := lt_of_slot_node hy
  have hleaf (n : Nat) (hn : t.slot ⟨x, i⟩ = .leaf n) : n < invalidWord.toNat := by
    rw [hy] at hn
    cases hn
  have hentry := h.entry_eq hclosed hx hi hleaf
  rwa [hy, entryIn] at hentry

/-- **A look-up visits the run of a node** that stands at the end of tables ahead of ModRM, if the
key takes them. -/
theorem visits_collapse {t : Trie} {order : List NodeId} {table : FlatTable}
    (h : t.collapse.WrittenAs order table) (hclosed : t.Closed) {n : Nat} {a rest : List Step}
    (ha : Route.NoModRM a) (hrest : rest ≠ []) {x : NodeId} (hs : t.Stands x n (a ++ rest))
    {k : Key} (hk : k.Takes a) :
    ∃ y, t.slotFrom (.node x) (Route.slots a) = .node y ∧
      table.Visits (t.collapse.refIn order x) k (t.collapse.refIn order y) := by
  induction a generalizing x k with
  | nil => exact ⟨x, rfl, .here _ _⟩
  | cons s a ih =>
    obtain ⟨hkind, hstands⟩ := stands_cons_iff.mp hs
    obtain ⟨hs', ha⟩ := List.forall_mem_cons.mp ha
    obtain ⟨k', hchoose, hk⟩ := hk
    rcases hstands with ⟨hnil, -⟩ | ⟨z, hz, hz'⟩
    · exact absurd (List.append_eq_nil_iff.mp hnil).2 hrest
    · obtain ⟨y, hy, hvisits⟩ := ih ha hz' hk
      -- A table ahead of ModRM is not collapsed.
      have hkeeps : t.collapse.node x = t.node x := by
        rw [node_collapse]
        refine Node.collapse_of_not_ignoresMode fun hi ↦ hs' ?_
        rw [hkind]
        exact (Node.ignoresMode_iff.mp hi).1
      have hchoose' : k.choose (t.collapse.refIn order x).kind = some (s.slot, k') := by
        rw [refIn, kind, hkeeps, ← kind, ← hkind]
        exact hchoose
      have hentry := h.entry_refIn hclosed.collapse
        (show t.collapse.slot ⟨x, s.slot⟩ = .node z by rw [slot, hkeeps]; exact hz)
      exact ⟨y, by rw [Route.slots_cons, slotFrom_cons, enter_node, hz, hy],
        .next hchoose' hentry hvisits⟩

end Trie

end DecodeTrie
