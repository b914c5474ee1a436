import DecodeTrie.Trie.Basic

/-!
# Layout of a trie

The order in which the nodes of a trie are written, and the place of each among the words. Every
node below the root is written once, as a run with a word for each slot, and after the nodes that
its slots refer to; so the root comes last.
-/

namespace DecodeTrie

/-- Where the runs of nodes are. -/
structure Layout where
  /-- The nodes that have a run, in the order of the runs. -/
  order : Array NodeId
  /-- For each node of the trie, the first word of its run, if it has one. -/
  starts : Array (Option Nat)
  /-- The number of words of the runs. -/
  size : Nat
deriving Repr

namespace Layout

/-- The layout without runs, for a trie with the given number of nodes. -/
def empty (nodes : Nat) : Layout := ⟨#[], Array.replicate nodes none, 0⟩

/-- The first word of the run of a node. -/
def start? (l : Layout) (id : NodeId) : Option Nat := (l.starts[id]?).join

/-- Appends a run of some words for a node. -/
def append (l : Layout) (id : NodeId) (words : Nat) : Layout where
  order := l.order.push id
  starts := l.starts.setIfInBounds id (some l.size)
  size := l.size + words

end Layout

namespace Trie

/-- Appends the runs of a node and of what is below it, along paths of at most `bound` nodes, as far
as they are not there yet. -/
def layoutWithin (t : Trie) : Nat → Layout → NodeId → Layout
  | 0, l, _ => l
  | bound + 1, l, id =>
    if (l.start? id).isSome then l
    else
      let below := (t.node id).children.foldl (t.layoutWithin bound) l
      below.append id (t.kind id).slotCount

/-- The layout of everything below the root. -/
def layout (t : Trie) : Layout := t.layoutWithin t.size (Layout.empty t.size) root

end Trie

end DecodeTrie
