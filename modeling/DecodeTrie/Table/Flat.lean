import DecodeTrie.Table.Entry
import DecodeTrie.Trie.Collapse
import DecodeTrie.Trie.Layout

/-!
# Flat tables

A decoder as one sequence of words, the body, and a reference to its root table. Each table is a
run of words in the body. There are two ways to write it down: in the order in which it is produced
the root reference comes last, and in the canonical order it comes first, with offsets relative to
the body in both. `ofCanonical` reads the canonical form back.

Flattening a trie gives `none` when its words are more than 24-bit offsets can reach.
-/

namespace DecodeTrie

/-- A decoder as one sequence of words. -/
structure FlatTable where
  /-- The words of all tables. -/
  body : Array UInt32
  /-- The root table. -/
  root : TableRef
deriving DecidableEq, Repr

namespace FlatTable

/-! ## Words -/

/-- The number of words, the root reference included. -/
def size (t : FlatTable) : Nat := t.body.size + 1

/-- The words in the order in which they are produced. -/
def emissionWords (t : FlatTable) : List UInt32 := t.body.toList ++ [t.root.pack]

/-- The words with the root reference first. -/
def canonicalWords (t : FlatTable) : List UInt32 := t.root.pack :: t.body.toList

/-- The table with the given canonical words. The first word must refer to a table that lies within
the others. -/
def ofCanonical : List UInt32 → Option FlatTable
  | [] => none
  | w :: body =>
    match Entry.unpack w with
    | some (.table root) =>
      if root.offset + root.kind.slotCount ≤ body.length then some ⟨body.toArray, root⟩ else none
    | _ => none

/-- The entry of a slot of a table. Nothing, if the slot is outside the table or the body, or if
its word stands for nothing. -/
def entry (t : FlatTable) (table : TableRef) (index : Nat) : Option Entry :=
  if index < table.kind.slotCount then (t.body[table.offset + index]?).bind Entry.unpack else none

end FlatTable

/-! ## Flattening -/

namespace Trie

/-- The entry for a slot, by where the runs of nodes are. -/
def entryOf (t : Trie) (l : Layout) : Slot → Entry
  | .empty => .invalid
  | .leaf n => .encoding n
  | .node id => .table ⟨t.kind id, (l.start? id).getD 0⟩

/-- The words of the run of a node. -/
def run (t : Trie) (l : Layout) (id : NodeId) : List UInt32 :=
  (t.node id).slots.toList.map fun s ↦ (t.entryOf l s).pack

/-- The words of all runs. -/
def body (t : Trie) (l : Layout) : List UInt32 := l.order.toList.flatMap (t.run l)

/-- The greatest number of words that 24-bit offsets can reach. -/
def maxWords : Nat := offsetLimit - 1

/-- The flat table of a trie as it is. -/
def toFlat (t : Trie) : Option FlatTable :=
  let l := t.layout
  if l.size ≤ maxWords then
    some ⟨(t.body l).toArray, ⟨t.kind root, (l.start? root).getD 0⟩⟩
  else none

/-- The flat table of a trie, with ModRM tables collapsed where that is asked for. -/
def flatten (t : Trie) (collapse : Bool) : Option FlatTable :=
  if collapse then t.collapse.toFlat else t.toFlat

end Trie

end DecodeTrie
