/-!
# Tag classes

Tags are names with a bit each, in three classes: tags of instructions, tags of encodings, and CPU
modes. The bits of a class fit the 30-bit fields of the exported rows.
-/

namespace DecodeTrie

/-- What a tag is attached to. -/
inductive TagClass
  | instruction
  | encoding
  | mode
deriving DecidableEq, Repr

namespace TagClass

/-- The name of a class in messages. -/
def describe : TagClass → String
  | instruction => "instruction tags"
  | encoding => "encoding tags"
  | mode => "cpu modes"

/-- The number of tags that a class can hold. -/
def limit : Nat := 30

end TagClass

end DecodeTrie
