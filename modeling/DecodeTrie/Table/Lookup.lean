import DecodeTrie.Key.Basic
import DecodeTrie.Table.Flat

/-!
# Looking up keys

What a key decodes to, read off the words of a flat table. Nothing, if no encoding matches, if the
key lacks a byte that a table asks for, or if a word stands for nothing.

The tables of a word sequence that was read back may refer to one another in circles. A look-up
that comes to the same table twice with the same opcode bytes left would never end; the bound of
`lookup` exceeds the number of pairs of a table and a rest of the opcode, so that every other
look-up comes to its end.
-/

namespace DecodeTrie.FlatTable

/-- What a key decodes to from a table on, along at most `bound` tables. -/
def lookupWithin (t : FlatTable) : Nat → TableRef → Key → Option Nat
  | 0, _, _ => none
  | bound + 1, table, k =>
    match k.choose table.kind with
    | none => none
    | some (i, k') =>
      match t.entry table i with
      | some (.encoding n) => some n
      | some (.table next) => t.lookupWithin bound next k'
      | _ => none

/-- The number of tables that a look-up visits at most unless it runs in circles. -/
def visitBound (t : FlatTable) (k : Key) : Nat := (t.body.size + 1) * (k.opcode.length + 1) + 1

/-- What a key decodes to. -/
def lookup (t : FlatTable) (k : Key) : Option Nat := t.lookupWithin (t.visitBound k) t.root k

end DecodeTrie.FlatTable
