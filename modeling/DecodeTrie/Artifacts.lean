import DecodeTrie.Build
import DecodeTrie.Opcode.Printer
import DecodeTrie.Table.Flat

/-!
# Artifacts

What a compilation produces: the flat table, a row for each instruction and each encoding, and the
symbols that are exported by name. Names are exported with values, and the names that encoding
arguments use have 16-bit codes by their position: types count from 1, so that 0 is free for no
argument; size classes and named values count from `0x100`, above every byte code.
-/

namespace DecodeTrie

/-! ## Rows -/

/-- The row of an instruction. -/
structure InstructionRow where
  /-- The name. -/
  name : String
  /-- The mask of the tags. -/
  tags : Nat
  /-- The mask of the valid modes. -/
  validModes : Nat
  /-- The encodings, if there are any. -/
  encodings : Option EncodingRange
  /-- The number of arguments. -/
  argCount : Nat
  /-- The size codes of the arguments, filled up with 0. -/
  argSizes : List Int
deriving DecidableEq, Repr

/-- The row of an encoding. -/
structure EncodingRow where
  /-- The index of the instruction. -/
  insn : Nat
  /-- The descriptor. -/
  descriptor : Descriptor
  /-- The bit-field codes of the descriptor. -/
  packed : PackedOpcode
  /-- The arguments. -/
  args : List EncodingArg
  /-- The mask of the tags. -/
  tags : Nat
deriving DecidableEq, Repr

/-- A list of four, cut or filled up with a value. -/
def fillArguments {α : Type} (fill : α) (xs : List α) : List α :=
  (xs ++ List.replicate maxArguments fill).take maxArguments

/-- The size codes of the arguments of an instruction. -/
def Instruction.sizeCodes (i : Instruction) : List Int :=
  i.args.zipIdx.map fun a ↦ a.1.size.code a.2

/-- The row of an instruction whose encodings have the given range. -/
def Instruction.row (i : Instruction) (range : Option EncodingRange) : InstructionRow where
  name := i.name
  tags := i.tags.bits
  validModes := i.validModes
  encodings := range
  argCount := i.args.length
  argSizes := fillArguments 0 i.sizeCodes

/-- The row of an encoding with the given descriptor. -/
def Encoding.row (e : Encoding) (d : Descriptor) : EncodingRow where
  insn := e.insn
  descriptor := d
  packed := d.packed
  args := e.args
  tags := e.tags.bits

/-! ## Symbols -/

/-- A name that is exported with a value. -/
structure Symbol where
  /-- The name. -/
  name : String
  /-- The value. -/
  value : Nat
deriving DecidableEq, Repr

/-- What a compilation exports by name. -/
structure SymbolTable where
  /-- The instructions, by index. -/
  instructions : List Symbol
  /-- The instruction tags, by mask. -/
  insnTags : List Symbol
  /-- The encoding tags, by mask. -/
  encTags : List Symbol
  /-- The core modes, by mask. -/
  modes : List Symbol
  /-- The mode sets, by mask. -/
  modeSets : List Symbol
  /-- The argument types. -/
  argTypes : List String
  /-- The size classes. -/
  argSizes : List String
  /-- The named values. -/
  argValues : List String
deriving DecidableEq, Repr

/-- The first code of size classes and of named values. -/
def symbolicCodeBase : UInt16 := 0x100

/-- The first code of argument types. -/
def typeCodeBase : UInt16 := 1

/-- The code of a name among names that are numbered from `base` on. -/
def nameCode? (base : UInt16) (names : List String) (name : String) : Option UInt16 :=
  (names.idxOf? name).map fun i ↦ base + UInt16.ofNat i

namespace SymbolTable

/-- The code of an argument type. -/
def argTypeCode? (s : SymbolTable) (name : String) : Option UInt16 :=
  nameCode? typeCodeBase s.argTypes name

/-- The code of a size: its number of bytes, or the code of its class. -/
def argSizeCode? (s : SymbolTable) (size : String) : Option UInt16 :=
  match fixedSize? size with
  | some bytes => some (UInt16.ofNat bytes)
  | none => nameCode? symbolicCodeBase s.argSizes size

/-- The code of a value: its byte code, or the code of its name. -/
def argValueCode? (s : SymbolTable) (value : ArgValue) : Option UInt16 :=
  match value with
  | .named name => nameCode? symbolicCodeBase s.argValues name
  | other => other.code.map UInt16.ofNat

end SymbolTable

/-- The tags of a registry, by mask. -/
def TagRegistry.symbols (r : TagRegistry) : List Symbol :=
  r.entries.map fun e ↦ ⟨e.1, bitMask e.2⟩

/-- The symbols of a catalog. -/
def Catalog.symbols (c : Catalog) : SymbolTable where
  instructions := c.instructions.toList.zipIdx.map fun i ↦ ⟨i.1.name, i.2⟩
  insnTags := c.registries.insnTags.symbols
  encTags := c.registries.encTags.symbols
  modes := c.registries.modes.core.symbols
  modeSets := c.registries.modes.sets.map fun s ↦ ⟨s.name, s.mask⟩
  argTypes := c.argSymbols.types
  argSizes := c.argSymbols.sizes
  argValues := c.argSymbols.values

/-! ## Everything -/

/-- What a compilation produces. -/
structure Artifacts where
  /-- The flat table. -/
  table : FlatTable
  /-- The rows of the instructions, by index. -/
  instructions : List InstructionRow
  /-- The rows of the encodings, by number. -/
  encodings : List EncodingRow
  /-- The exported symbols. -/
  symbols : SymbolTable
deriving DecidableEq, Repr

/-- The artifacts of a catalog whose encodings have the given descriptors and ranges. -/
def Artifacts.assemble (c : Catalog) (table : FlatTable) (ranges : List (Option EncodingRange))
    (descriptors : List Descriptor) : Artifacts where
  table := table
  instructions := List.zipWith Instruction.row c.instructions.toList ranges
  encodings := List.zipWith Encoding.row c.encodings.toList descriptors
  symbols := c.symbols

end DecodeTrie
