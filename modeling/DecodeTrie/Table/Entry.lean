import DecodeTrie.Node.Kind

/-!
# Table words

The flat form of a decoder is a sequence of 32-bit words. A word is the invalid word, which stands
for no encoding, or an encoding number with all kind bits zero, or a reference to a table: the code
of its kind in the upper 8 bits and the offset of its first word in the lower 24.
-/

namespace DecodeTrie

/-- The word that stands for no encoding. -/
def invalidWord : UInt32 := 0x00ffffff

/-- The number of bits of a word below the kind. -/
def offsetBits : Nat := 24

/-- The offsets that a word can hold are those below this one. -/
def offsetLimit : Nat := 1 <<< offsetBits

/-- The place of a table among the words of a decoder, and its kind. -/
structure TableRef where
  /-- The kind. -/
  kind : NodeKind
  /-- The offset of the first word. -/
  offset : Nat
deriving DecidableEq, Repr

/-- The word of a reference. -/
def TableRef.pack (r : TableRef) : UInt32 :=
  UInt32.ofNat (r.kind.code <<< offsetBits ||| r.offset)

/-- What a word stands for. -/
inductive Entry
  /-- No encoding. -/
  | invalid
  /-- An encoding number. -/
  | encoding (number : Nat)
  /-- Another table. -/
  | table (ref : TableRef)
deriving DecidableEq, Repr

namespace Entry

/-- The word of an entry. -/
def pack : Entry → UInt32
  | invalid => invalidWord
  | encoding n => UInt32.ofNat n
  | table r => r.pack

/-- What a word stands for; nothing, if its kind bits are the code of no kind. -/
def unpack (w : UInt32) : Option Entry :=
  if w.toNat >>> offsetBits = 0 then some (if w = invalidWord then invalid else encoding w.toNat)
  else
    (NodeKind.ofCode? (w.toNat >>> offsetBits)).map fun k ↦ table ⟨k, w.toNat % offsetLimit⟩

@[simp] theorem unpack_invalidWord : unpack invalidWord = some invalid := rfl

end Entry

end DecodeTrie
