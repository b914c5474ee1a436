import DecodeTrie.Artifacts
import DecodeTrie.Render.Names
import DecodeTrie.Text.Quoted

/-!
# The generated module

Artifacts are written as a self-contained source module: a constant for each symbol, the words of
the decoder in canonical order, and the rows of instructions and encodings. A module is a list of
lines. Some lines declare an item, and those are kept apart into what comes before the name of the
item, the name, and what comes after, because the prefix of the names is an option.
-/

namespace DecodeTrie

/-- The options of a generated module. -/
structure RenderOptions where
  /-- What every constant and static name starts with. -/
  symbolPrefix : String := ""
  /-- The number of table words on a line; 0 acts as 1. -/
  wordsPerLine : Nat := 8
deriving DecidableEq, Repr

namespace Render

/-- A line of a module. -/
inductive Line
  /-- Plain text. -/
  | text (line : String)
  /-- The declaration of a constant. -/
  | constant (name rest : String)
  /-- The first line of the declaration of a static. -/
  | static (name rest : String)
deriving DecidableEq, Repr

/-- The characters of a line. -/
def Line.render : Line → String
  | text line => line
  | constant name rest => "pub const " ++ name ++ rest
  | static name rest => "pub static " ++ name ++ rest

/-! ## Numbers and lists -/

/-- A 32-bit word as `0x` and eight digits. -/
def wordLiteral (w : Nat) : String := Text.paddedHexLiteral 8 w

/-- A list as its members between brackets. -/
def listLiteral {α : Type} [ToString α] (xs : List α) : String :=
  "[" ++ ", ".intercalate (xs.map toString) ++ "]"

/-- The members of a list in groups of `size`, the last one of what is left, for at most `bound`
groups. -/
def chunksWithin {α : Type} (size : Nat) : Nat → List α → List (List α)
  | 0, _ => []
  | _ + 1, [] => []
  | bound + 1, x :: xs => (x :: xs).take size :: chunksWithin size bound ((x :: xs).drop size)

/-- The members of a list in groups of `size`, the last one of what is left; a size of 0 acts as
1. -/
def chunks {α : Type} (size : Nat) (xs : List α) : List (List α) :=
  chunksWithin (max size 1) xs.length xs

/-! ## Constants -/

/-- The declarations of symbols of one class with values of one type. -/
def constants (symbolPrefix cls type : String) :
    List (String × String) → StateM Names (List Line)
  | [] => pure []
  | (raw, value) :: symbols => do
    let name ← claim symbolPrefix cls raw
    let lines ← constants symbolPrefix cls type symbols
    pure (.constant name (": " ++ type ++ " = " ++ value ++ ";") :: lines)

/-- Declarations with an empty line behind them, if there are any. -/
def block (lines : List Line) : List Line := if lines.isEmpty then [] else lines ++ [.text ""]

/-- The block of declarations of masks. -/
def maskBlock (symbolPrefix cls : String) (symbols : List Symbol) : StateM Names (List Line) := do
  let lines ← constants symbolPrefix cls "u32" (symbols.map fun s ↦ (s.name, wordLiteral s.value))
  pure (block lines)

/-- The block of declarations of names that are numbered from `base` on. -/
def codeBlock (symbolPrefix cls : String) (base : UInt16) (names : List String) :
    StateM Names (List Line) := do
  let lines ← constants symbolPrefix cls "u16"
    (names.zipIdx.map fun n ↦ (n.1, Text.hexLiteral (base + UInt16.ofNat n.2).toNat))
  pure (block lines)

/-- The declarations of all symbols. -/
def symbolLines (symbolPrefix : String) (s : SymbolTable) : StateM Names (List Line) := do
  let insns ← constants symbolPrefix "INSN_" "u32"
    (s.instructions.map fun i ↦ (i.name, toString i.value))
  let insnTags ← maskBlock symbolPrefix "ITAG_" s.insnTags
  let encTags ← maskBlock symbolPrefix "ETAG_" s.encTags
  let modes ← maskBlock symbolPrefix "MODE_" s.modes
  let modeSets ← maskBlock symbolPrefix "MODE_" s.modeSets
  let argTypes ← codeBlock symbolPrefix "ARGTYPE_" typeCodeBase s.argTypes
  let argSizes ← codeBlock symbolPrefix "ARGSIZE_" symbolicCodeBase s.argSizes
  let argValues ← codeBlock symbolPrefix "ARGVALUE_" symbolicCodeBase s.argValues
  let count := s.instructions.length
  pure (insns ++ [.constant (symbolPrefix ++ "INSN_COUNT") (": usize = " ++ toString count ++ ";"),
    .text ""] ++ insnTags ++ encTags ++ modes ++ modeSets ++ argTypes ++ argSizes ++ argValues)

/-! ## Tables -/

/-- A line of the table of words. -/
def wordLine (words : List UInt32) : Line :=
  .text ("    " ++ " ".intercalate (words.map fun w ↦ wordLiteral w.toNat ++ ","))

/-- A line with the range of encodings of an instruction. -/
def rangeLiteral : Option EncodingRange → String
  | some r => "Some((" ++ toString r.first ++ ", " ++ toString r.last ++ "))"
  | none => "None"

/-- The line of an instruction. -/
def instructionLine (row : InstructionRow) : Line :=
  .text ("    InsnInfo \x7b alias: " ++ Text.quoted row.name ++
    ", tags: " ++ Text.hexLiteral row.tags ++
    ", valid_modes: " ++ Text.hexLiteral row.validModes ++
    ", encodings: " ++ rangeLiteral row.encodings ++
    ", arg_count: " ++ toString row.argCount ++
    ", arg_sizes: " ++ listLiteral row.argSizes ++ " \x7d,")

/-- The type, size and value codes of the arguments of an encoding, each filled up with 0, which
also stands for a code that is missing. -/
def argCodes (s : SymbolTable) (args : List EncodingArg) :
    List UInt16 × List UInt16 × List UInt16 :=
  (fillArguments 0 (args.map fun a ↦ (s.argTypeCode? a.argType).getD 0),
    fillArguments 0 (args.map fun a ↦ (s.argSizeCode? a.size).getD 0),
    fillArguments 0 (args.map fun a ↦ (s.argValueCode? a.value).getD 0))

/-- The line of an encoding. -/
def encodingLine (s : SymbolTable) (row : EncodingRow) : Line :=
  let p := row.packed
  let (types, sizes, values) := argCodes s row.args
  .text ("    EncodingInfo \x7b insn: " ++ toString row.insn ++
    ", op66: " ++ toString p.op66 ++
    ", opcode1: " ++ Text.hexLiteral p.opcode1 ++
    ", opcode2: " ++ Text.hexLiteral p.opcode2 ++
    ", modrm_mod: " ++ toString p.mode ++
    ", regop: " ++ toString p.regop ++
    ", rm: " ++ toString p.rm ++
    ", fx: " ++ toString p.fx ++
    ", arg_types: " ++ listLiteral (types.map UInt16.toNat) ++
    ", arg_sizes: " ++ listLiteral (sizes.map UInt16.toNat) ++
    ", arg_values: " ++ listLiteral (values.map UInt16.toNat) ++
    ", tags: " ++ Text.hexLiteral row.tags ++ " \x7d,")

/-- A static table with the given lines. -/
def table (name type : String) (length : Nat) (lines : List Line) : List Line :=
  .static name (": [" ++ type ++ "; " ++ toString length ++ "] = [") :: lines ++ [.text "];"]

/-- The declarations of the types of the rows. -/
def rowTypes : List Line :=
  ["#[derive(Debug, Clone, Copy, PartialEq, Eq)]",
    "pub struct InsnInfo \x7b",
    "    pub alias: &'static str,",
    "    pub tags: u32,",
    "    pub valid_modes: u32,",
    "    /// Inclusive encoding number range.",
    "    pub encodings: Option<(u32, u32)>,",
    "    pub arg_count: u8,",
    "    /// Positive: fixed size in bytes. Negative: `-(n + 1)`, same size as argument `n`.",
    "    pub arg_sizes: [i8; 4],",
    "\x7d",
    "",
    "/// Argument codes: types are 1-based (0 = none); sizes are bytes or 0x100 + size class;",
    "/// values are 0x80 default, 0x81 reg_or_mem, a literal, or 0x100 + named value.",
    "#[derive(Debug, Clone, Copy, PartialEq, Eq)]",
    "pub struct EncodingInfo \x7b",
    "    pub insn: u32,",
    "    pub op66: u8,",
    "    pub opcode1: u16,",
    "    pub opcode2: u16,",
    "    pub modrm_mod: u8,",
    "    pub regop: u8,",
    "    pub rm: u8,",
    "    pub fx: u8,",
    "    pub arg_types: [u16; 4],",
    "    pub arg_sizes: [u16; 4],",
    "    pub arg_values: [u16; 4],",
    "    pub tags: u32,",
    "\x7d"].map Line.text

/-! ## The whole module -/

/-- The lines of the module of some artifacts. -/
def moduleLines (a : Artifacts) (options : RenderOptions) : List Line :=
  let p := options.symbolPrefix
  let words := a.table.canonicalWords
  [.text "// @generated by optrie. Do not edit.", .text "",
    .constant (p ++ "INVALID_ENTRY") (": u32 = " ++ wordLiteral invalidWord.toNat ++ ";"),
    .text ""] ++
  (symbolLines p a.symbols []).1 ++
  table (p ++ "DECODER_TABLE") "u32" words.length
    ((chunks options.wordsPerLine words).map wordLine) ++ [.text ""] ++
  rowTypes ++ [.text ""] ++
  table (p ++ "INSNS") "InsnInfo" a.instructions.length (a.instructions.map instructionLine) ++
    [.text ""] ++
  table (p ++ "ENCODINGS") "EncodingInfo" a.encodings.length
    (a.encodings.map (encodingLine a.symbols))

end Render

/-- The text of the module of some artifacts. -/
def Artifacts.render (a : Artifacts) (options : RenderOptions) : String :=
  String.join ((Render.moduleLines a options).map fun l ↦ l.render ++ "\n")

end DecodeTrie
