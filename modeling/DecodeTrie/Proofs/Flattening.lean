import DecodeTrie.Proofs.Build.Histories
import DecodeTrie.Proofs.Decoding

/-!
# Flattening

The flat table of a trie answers every key as the trie itself does, when one follows its references
from the root without any bound (`lookup_eq_iff_reads`). This holds of every trie that a history of
insertions makes, also where insertions have failed in the middle and have left a part of an
encoding behind, and whether ModRM tables are collapsed or not.

Nothing is asked of the history, because everything that flattening needs is an invariant of all
insertions: references stay within the trie and do not run in circles, and the numbers that are
placed are those of encodings, which fit into words.
-/

namespace DecodeTrie

/-- **Flattening keeps the meaning of a trie**, collapsed or not. After any history of insertions, a
flat table gives for a key what the key reads from the root of the trie on. So both tables answer
every key alike. -/
theorem lookup_eq_iff_reads (steps : List CatalogStep) (options : Options)
    (history : List Insertion) :
    let c := Catalog.after steps
    let t := (Build.after c (c.steering options) history).trie
    (∀ collapse table, t.flatten collapse = some table → ∀ k r,
      table.lookup k = r ↔ t.Reads Trie.root k r) ∧
      ∀ on off, t.flatten true = some on → t.flatten false = some off → ∀ k,
        on.lookup k = off.lookup k := by
  intro c t
  have hc : c.Numbered := Catalog.numbered_after steps
  obtain ⟨held, hheld, hleft⟩ := Build.exists_holds c (c.steering options) history
  have hfit : t.NumbersFit :=
    hheld.numbersFit (fun x hx ↦ Build.number_lt_of_mem_claims hc hleft hx) hc.size_le
  have hreads (collapse : Bool) (table : FlatTable) (h : t.flatten collapse = some table) (k : Key)
      (r : Option Nat) : table.lookup k = r ↔ t.Reads Trie.root k r := by
    rw [Trie.lookup_flatten hheld.wellLinked.closed hheld.wellLinked.size_pos
      hheld.wellLinked.within_root hfit h, Trie.walk,
      Trie.walkWithin_eq_iff_reads hheld.wellLinked.within_root]
  refine ⟨hreads, fun on off hon hoff k ↦ ?_⟩
  rw [hreads true on hon, ← hreads false off hoff]

theorem lookup_eq_iff_reads_takenMode :
    let c := Catalog.after takenMode
    let t := (Build.after c (c.steering {}) [takeLastMode, takeEveryMode]).trie
    let k : Key := { opcode := [0xd9], modrm := some 0x40 }
    ¬ Build.Accepts c (c.steering {}) [takeLastMode, takeEveryMode] ∧
      ∃ on off, t.flatten true = some on ∧ t.flatten false = some off ∧
        on.lookup k = some 1 ∧ off.lookup k = some 1 ∧ t.Reads Trie.root k (some 1) := by
  intro c t k
  have hfails : ¬ Build.Accepts c (c.steering {}) [takeLastMode, takeEveryMode] := by decide +kernel
  have hon : (t.flatten true).map (fun table ↦ table.lookup k) = some (some 1) := by decide +kernel
  have hoff : (t.flatten false).isSome := by decide +kernel
  obtain ⟨on, h, hlookup⟩ := Option.map_eq_some_iff.mp hon
  obtain ⟨off, h'⟩ := Option.isSome_iff_exists.mp hoff
  obtain ⟨hreads, hsame⟩ := lookup_eq_iff_reads takenMode {} [takeLastMode, takeEveryMode]
  exact ⟨hfails, on, off, h, h', hlookup, (hsame on off h h' k).symm.trans hlookup,
    (hreads true on h k _).mp hlookup⟩

end DecodeTrie
