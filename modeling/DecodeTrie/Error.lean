import DecodeTrie.Node.Kind
import DecodeTrie.Opcode.Error
import DecodeTrie.Tag.Class
import DecodeTrie.Text.Hex

/-!
# Errors of a catalog and its compilation

A catalog is refused, or its compilation stops, at the first error. Each error is a cause together
with what its wording needs; `message` is that wording.
-/

namespace DecodeTrie

/-- What an encoding wants, or finds, in a slot of the trie. -/
inductive Shape
  /-- An encoding number. -/
  | leaf
  /-- A table of one kind. -/
  | table (kind : NodeKind)
deriving DecidableEq, Repr

namespace Shape

/-- The name of a shape in messages. -/
def describe : Shape → String
  | leaf => "leaf"
  | table k => k.describe

end Shape

/-- Why an argument of an instruction or encoding is refused. -/
inductive ArgumentFault
  /-- A fixed size outside `B1` to `B127`. -/
  | fixedSize (size : String)
  /-- A literal value above 127. -/
  | literal (value : Nat)
deriving DecidableEq, Repr

namespace ArgumentFault

/-- The wording of a refusal. -/
def message : ArgumentFault → String
  | fixedSize s => "fixed size `" ++ s ++ "` must be B1..B127"
  | literal v => "literal value " ++ toString v ++ " is outside 0..=127"

end ArgumentFault

/-- Why a catalog is refused or its compilation stops. -/
inductive CompileError
  /-- The opcode pattern of an encoding denotes nothing. -/
  | malformedOpcode (insn pattern : String) (cause : PatternError)
  /-- An encoding with another number of arguments than its instruction. -/
  | argumentCountMismatch (insn pattern : String) (expected found : Nat)
  /-- An argument with an impossible size or value. -/
  | invalidArgument (insn : String) (index : Nat) (cause : ArgumentFault)
  /-- An instruction with too many arguments. -/
  | tooManyArguments (insn : String) (count max : Nat)
  /-- An encoding whose slot another encoding holds. -/
  | duplicateOpcode (insn : String) (encoding : Nat) (pattern otherInsn : String)
      (otherEncoding : Nat)
  /-- An encoding that needs another shape of trie than an earlier one has made. -/
  | opcodeConflict (insn : String) (encoding : Nat) (pattern : String) (wanted found : Shape)
      (otherInsn : String) (otherEncoding : Nat)
  /-- A register number that does not fit behind the opcode byte. -/
  | registerBaseOverflow (insn pattern : String)
  /-- A tag class that is full. -/
  | tagOverflow (cls : TagClass) (name : String)
  /-- A name that another instruction has. -/
  | duplicateInstruction (insn : String)
  /-- A mode name that is neither a mode nor a set. -/
  | unknownMode (mode context : String)
  /-- A mode name that is taken. -/
  | duplicateMode (name : String)
  /-- A mode set without members. -/
  | emptyModeSet (name : String)
  /-- More encodings than table words can number. -/
  | tooManyEncodings (count limit : Nat)
  /-- An encoding number outside the catalog. -/
  | noSuchEncoding (encoding : Nat)
  /-- A table with more words than offsets can reach. -/
  | tableTooLarge (words : Nat)
deriving DecidableEq, Repr

namespace CompileError

/-- The wording of an error. -/
def message : CompileError → String
  | malformedOpcode insn pattern cause =>
    "instruction `" ++ insn ++ "`: malformed opcode spec `" ++ pattern ++ "`: " ++ cause.message
  | argumentCountMismatch insn pattern expected found =>
    "instruction `" ++ insn ++ "`: encoding `" ++ pattern ++ "` has " ++ toString found ++
      " argument(s), instruction declares " ++ toString expected
  | invalidArgument insn index cause =>
    "instruction `" ++ insn ++ "`: argument " ++ toString index ++ ": " ++ cause.message
  | tooManyArguments insn count max =>
    "instruction `" ++ insn ++ "`: " ++ toString count ++ " arguments declared, at most " ++
      toString max ++ " are supported"
  | duplicateOpcode insn encoding pattern otherInsn otherEncoding =>
    "duplicate opcode definition: instruction `" ++ insn ++ "` (encoding " ++ toString encoding ++
      ", `" ++ pattern ++ "`) collides with instruction `" ++ otherInsn ++ "` (encoding " ++
      toString otherEncoding ++ ")"
  | opcodeConflict insn encoding pattern wanted found otherInsn otherEncoding =>
    "opcode conflict: instruction `" ++ insn ++ "` (encoding " ++ toString encoding ++ ", `" ++
      pattern ++ "`) needs a " ++ wanted.describe ++ " where instruction `" ++ otherInsn ++
      "` (encoding " ++ toString otherEncoding ++ ") already placed a " ++ found.describe
  | registerBaseOverflow insn pattern =>
    "instruction `" ++ insn ++ "`: register-in-opcode encoding `" ++ pattern ++
      "` overflows the opcode byte"
  | tagOverflow cls name =>
    "too many " ++ cls.describe ++ " (limit " ++ toString TagClass.limit ++
      "): cannot register `" ++ name ++ "`"
  | duplicateInstruction insn => "duplicate instruction alias `" ++ insn ++ "`"
  | unknownMode mode context =>
    "unknown cpu mode `" ++ mode ++ "` referenced by `" ++ context ++ "`"
  | duplicateMode name => "cpu mode name `" ++ name ++ "` is declared twice"
  | emptyModeSet name => "mode set `" ++ name ++ "` is empty"
  | tooManyEncodings count limit =>
    "too many encodings (" ++ toString count ++ "); encoding numbers must stay below " ++
      Text.hexLiteral limit
  | noSuchEncoding encoding => "no encoding has the number " ++ toString encoding
  | tableTooLarge words =>
    "decoder table exceeds the 24-bit offset range: " ++ toString words ++ " words"

end CompileError

end DecodeTrie
