import DecodeTrie.Catalog.Argument

/-!
# Declarations

What a catalog is built from: modes, mode sets, and instructions with their encodings, as they are
handed in. Nothing here is checked yet.
-/

namespace DecodeTrie

/-- An encoding as it is declared. -/
structure EncodingDecl where
  /-- The opcode pattern. -/
  opcode : String
  /-- The names of the tags. -/
  tags : List String := []
  /-- The arguments. -/
  args : List EncodingArgDecl := []
deriving DecidableEq, Repr

/-- An instruction as it is declared. -/
structure InstructionDecl where
  /-- The name, which no other instruction may have. -/
  name : String
  /-- The names of the tags. -/
  tags : List String := []
  /-- The modes and mode sets in which the instruction is valid. -/
  modes : List String := []
  /-- The arguments. -/
  args : List ArgDecl := []
  /-- The encodings. -/
  encodings : List EncodingDecl := []
deriving DecidableEq, Repr

/-- A mode set as it is declared. -/
structure ModeSetDecl where
  /-- The name of the set. -/
  name : String
  /-- The modes and earlier sets in it. -/
  members : List String
deriving DecidableEq, Repr

/-- A whole catalog as it is declared. -/
structure CatalogDecl where
  /-- The core modes. -/
  modes : List String := []
  /-- The mode sets. -/
  modeSets : List ModeSetDecl := []
  /-- The instructions. -/
  instructions : List InstructionDecl := []
deriving DecidableEq, Repr

end DecodeTrie
