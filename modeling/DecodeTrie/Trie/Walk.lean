import DecodeTrie.Key.Basic
import DecodeTrie.Trie.Basic

/-!
# Walking the trie

What a key decodes to, read off the trie itself: from the root, the key chooses a slot at each
table, until the slot holds an encoding number or nothing.
-/

namespace DecodeTrie.Trie

/-- What a key decodes to from a node on, along at most `bound` tables. -/
def walkWithin (t : Trie) : Nat → NodeId → Key → Option Nat
  | 0, _, _ => none
  | bound + 1, id, k =>
    match k.choose (t.kind id) with
    | none => none
    | some (i, k') =>
      match (t.node id).slot i with
      | .empty => none
      | .leaf n => some n
      | .node child => t.walkWithin bound child k'

/-- What a key decodes to. -/
def walk (t : Trie) (k : Key) : Option Nat := t.walkWithin t.size root k

end DecodeTrie.Trie
