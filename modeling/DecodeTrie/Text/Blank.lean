/-!
# Blank characters and words

Opcode patterns are written as words with blank characters between them. Which characters are
blank is the Unicode property `White_Space`, a closed list of ten ranges; it is wider than the
blank characters of ASCII (the no-break space and the ideographic space belong to it) and leaves
out some characters that look blank (the zero-width space, the byte order mark).
-/

namespace DecodeTrie.Text

/-- Whether the code point of `c` lies in one of the closed ranges. -/
def inRanges (ranges : List (Nat × Nat)) (c : Char) : Bool :=
  ranges.any fun r ↦ r.1 ≤ c.toNat && c.toNat ≤ r.2

/-- The ranges of the Unicode property `White_Space`. -/
def blankRanges : List (Nat × Nat) :=
  [(0x09, 0x0d), (0x20, 0x20), (0x85, 0x85), (0xa0, 0xa0), (0x1680, 0x1680), (0x2000, 0x200a),
    (0x2028, 0x2029), (0x202f, 0x202f), (0x205f, 0x205f), (0x3000, 0x3000)]

/-- Whether `c` separates words. -/
def isBlank (c : Char) : Bool := inRanges blankRanges c

/-- The maximal runs of characters that are not blank, in order. -/
def words (cs : List Char) : List (List Char) :=
  (cs.splitOnP isBlank).filter fun w ↦ !w.isEmpty

@[simp] theorem words_nil : words [] = [] := by
  simp [words]

end DecodeTrie.Text
