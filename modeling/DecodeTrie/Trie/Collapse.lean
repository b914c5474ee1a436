import DecodeTrie.Key.Basic
import DecodeTrie.Trie.Basic

/-!
# Collapsing ModRM tables

A ModRM table in which every register column holds the same thing at all four modes never looks at
the mode. Collapsing replaces each such table by one with a slot per register.
-/

namespace DecodeTrie

namespace Node

/-- Whether a node is a ModRM table that never looks at the mode. -/
def ignoresMode (n : Node) : Bool :=
  n.kind == .modrm &&
    (List.range 8).all fun r ↦ [1, 2, 3].all fun m ↦ n.slot (ModRM.slot r m) == n.slot r

/-- The register table that answers as a ModRM table does at mode 0. -/
def toRegOnly (n : Node) : Node := ⟨.regOnly, Vector.ofFn fun r : Fin 8 ↦ n.slot r⟩

/-- Replaces a ModRM table that never looks at the mode. -/
def collapse (n : Node) : Node := if n.ignoresMode then n.toRegOnly else n

end Node

namespace Trie

/-- Replaces every ModRM table that never looks at the mode. -/
def collapse (t : Trie) : Trie := ⟨(t.nodes.toList.map Node.collapse).toArray⟩

/-- The number of tables that collapsing replaces. -/
def collapsible (t : Trie) : Nat := t.nodes.toList.countP Node.ignoresMode

end Trie

end DecodeTrie
