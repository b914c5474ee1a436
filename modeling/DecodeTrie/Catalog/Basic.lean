import DecodeTrie.Catalog.Declaration
import DecodeTrie.Tag.Mode

/-!
# Catalogs

A catalog holds the checked instructions and encodings, an index of the instructions by name, the
registries of their tags and modes, and the names that encoding arguments use. Encodings are
numbered in the order in which they are added, and so each instruction owns a block of consecutive
numbers.

A catalog grows by steps. A step that fails leaves the catalog as it was, except that tags which it
registered before failing stay registered.
-/

namespace DecodeTrie

/-- The tags and modes of a catalog. -/
structure Registries where
  /-- The tags of instructions. -/
  insnTags : TagRegistry := { cls := .instruction }
  /-- The tags of encodings. -/
  encTags : TagRegistry := { cls := .encoding }
  /-- The CPU modes. -/
  modes : ModeRegistry := {}
deriving DecidableEq, Repr

/-- A checked instruction. -/
structure Instruction where
  /-- The name. -/
  name : String
  /-- The tags. -/
  tags : TagSet
  /-- The bits of the core modes in which the instruction is valid. -/
  validModes : Nat
  /-- The arguments. -/
  args : List Argument
  /-- The number of the first encoding. -/
  first : Nat
  /-- The number behind the last encoding. -/
  stop : Nat
deriving DecidableEq, Repr

/-- A checked encoding. -/
structure Encoding where
  /-- The index of the instruction that owns the encoding. -/
  insn : Nat
  /-- The number of the encoding. -/
  number : Nat
  /-- The opcode pattern, read at compilation. -/
  opcode : String
  /-- The tags. -/
  tags : TagSet
  /-- The arguments. -/
  args : List EncodingArg
deriving DecidableEq, Repr

/-- The names that encoding arguments use, each list in order of first appearance. -/
structure ArgSymbols where
  /-- The argument types. -/
  types : List String := []
  /-- The size classes. -/
  sizes : List String := []
  /-- The named values. -/
  values : List String := []
deriving DecidableEq, Repr

/-- The checked instructions and encodings, with everything that they refer to. -/
structure Catalog where
  /-- The tags and modes. -/
  registries : Registries := {}
  /-- The instructions. -/
  instructions : Array Instruction := #[]
  /-- The encodings, each at the position of its number. -/
  encodings : Array Encoding := #[]
  /-- The index of each instruction under its name, the latest first. -/
  index : List (String × Nat) := []
  /-- The names that encoding arguments use. -/
  argSymbols : ArgSymbols := {}
deriving DecidableEq, Repr

namespace ArgSymbols

/-- Appends a name unless it is there. -/
def note (names : List String) (name : String) : List String :=
  if names.contains name then names else names ++ [name]

/-- Notes the names that an argument uses. A fixed size is no name. -/
def noteArg (s : ArgSymbols) (arg : EncodingArg) : ArgSymbols where
  types := note s.types arg.argType
  sizes := if (fixedSize? arg.size).isSome then s.sizes else note s.sizes arg.size
  values :=
    match arg.value with
    | .named n => note s.values n
    | _ => s.values

/-- Notes the names that the arguments of encodings use. -/
def noteEncodings (s : ArgSymbols) (encodings : List Encoding) : ArgSymbols :=
  encodings.foldl (fun s e ↦ e.args.foldl noteArg s) s

end ArgSymbols

namespace Catalog

/-- The index of the instruction with the given name. -/
def lookup (c : Catalog) (name : String) : Option Nat := c.index.lookup name

/-- The name of an instruction, which is empty outside the catalog. -/
def insnName (c : Catalog) (insn : Nat) : String :=
  match c.instructions[insn]? with
  | some i => i.name
  | none => ""

/-- The name of the instruction that owns an encoding, which is empty outside the catalog. -/
def ownerName (c : Catalog) (number : Nat) : String :=
  match c.encodings[number]? with
  | some e => c.insnName e.insn
  | none => ""

end Catalog

end DecodeTrie
