import DecodeTrie.Opcode.Token
import DecodeTrie.Text.Blank

/-!
# Reading opcode patterns

The words of a pattern are read from left to right into a draft, which knows the opcode bytes seen
so far and, for each other field, what constrains it. A word that cannot be added is an error, and
so the first such word decides, whatever follows. When all words are in, the draft is completed to
a descriptor, or something turns out to be missing.

The order of the words matters among plain bytes only: `0f` before the opcode byte is an escape,
and after it is an error.
-/

namespace DecodeTrie

/-- The plain bytes of a pattern so far. -/
inductive OpcodeBytes
  /-- No byte yet. -/
  | start
  /-- The escape. -/
  | escaped
  /-- An opcode byte. -/
  | oneByte (primary : UInt8)
  /-- The escape and an opcode byte. -/
  | twoByte (primary : UInt8)
  /-- Two escapes. -/
  | threeDNow
deriving DecidableEq, Repr

/-- What the words of a pattern have said so far. -/
structure Draft where
  /-- The plain bytes. -/
  bytes : OpcodeBytes := .start
  /-- The extra opcode byte. -/
  extra : Option UInt8 := none
  /-- Whether the operand-size prefix is there. -/
  opSize : Option Bool := none
  /-- The repeat prefix. -/
  rep : Option RepState := none
  /-- The register field. -/
  reg : Option RegField := none
  /-- The mode field. -/
  mode : Option ModeField := none
  /-- The r/m field. -/
  rm : Option (Fin 8) := none
deriving DecidableEq, Repr

namespace Draft

/-- Constrains a prefix; saying the same again is harmless. -/
def setPrefix {α : Type} [DecidableEq α] (word : List Char) (field : Option α) (value : α) :
    Except PatternError (Option α) :=
  match field with
  | none => .ok (some value)
  | some earlier =>
    if earlier = value then .ok (some value)
    else .error (.conflictingPrefix (String.ofList word))

/-- Constrains a ModRM field, which may happen once. -/
def setField {α : Type} (word : List Char) (field : Option α) (value : α) :
    Except PatternError (Option α) :=
  match field with
  | none => .ok (some value)
  | some _ => .error (.repeatedField (String.ofList word))

/-- Adds a token to a draft; `word` is how it was written. -/
def add (d : Draft) (word : List Char) : Token → Except PatternError Draft
  | .escape =>
    match d.bytes with
    | .start => .ok { d with bytes := .escaped }
    | .escaped => .ok { d with bytes := .threeDNow }
    | _ => .error .misplacedEscape
  | .opcode b =>
    match d.bytes with
    | .start => .ok { d with bytes := .oneByte b }
    | .escaped => .ok { d with bytes := .twoByte b }
    | _ => .error (.tooManyOpcodeBytes (String.ofList word))
  | .extra b =>
    match d.extra with
    | none => .ok { d with extra := some b }
    | some _ => .error (.tooManyExtraBytes (String.ofList word))
  | .opSize p => (setPrefix word d.opSize p).map fun f ↦ { d with opSize := f }
  | .rep r => (setPrefix word d.rep r).map fun f ↦ { d with rep := f }
  | .reg r => (setField word d.reg r).map fun f ↦ { d with reg := f }
  | .mode m => (setField word d.mode (.only m)).map fun f ↦ { d with mode := f }
  | .memory => (setField word d.mode .memory).map fun f ↦ { d with mode := f }
  | .rm r => (setField word d.rm r).map fun f ↦ { d with rm := f }

/-- Reads a word and adds its token. -/
def addWord (d : Draft) (word : List Char) : Except PatternError Draft :=
  match Token.read word with
  | .ok t => d.add word t
  | .error e => .error e

/-- The opcode bytes of a draft in which all words are in. -/
def form (d : Draft) : Except PatternError OpcodeForm :=
  match d.bytes, d.extra with
  | .start, _ => .error .missingOpcode
  | .escaped, _ => .error .missingOpcode
  | .oneByte p, x => .ok (.oneByte p x)
  | .twoByte p, x => .ok (.twoByte p x)
  | .threeDNow, some b => .ok (.threeDNow b)
  | .threeDNow, none => .error .missingTrailingOpcode

/-- The constraint on the upper bits of ModRM of a draft in which all words are in. -/
def regForm (d : Draft) : Except PatternError (Option RegForm) :=
  match d.reg, d.mode with
  | some r, m => .ok (some ⟨r, m.getD .any⟩)
  | none, none => .ok none
  | none, some _ => .error .modeWithoutRegister

/-- The constraint on the operand-size prefix. -/
def opSizeClass (d : Draft) : OpSize :=
  match d.opSize with
  | none => .optional
  | some true => .required
  | some false => .forbidden

/-- The constraint on the repeat prefixes. -/
def repeatClass (d : Draft) : Repeat :=
  match d.rep with
  | none => .optional
  | some .none => .forbidden
  | some .f2 => .f2
  | some .f3 => .f3

/-- The descriptor of a draft in which all words are in. -/
def complete (d : Draft) : Except PatternError Descriptor :=
  match d.form with
  | .error e => .error e
  | .ok form =>
    match d.regForm with
    | .error e => .error e
    | .ok regForm => .ok ⟨d.opSizeClass, d.repeatClass, form, regForm, d.rm⟩

end Draft

namespace Descriptor

/-- The descriptor that a sequence of words denotes. -/
def ofWords : List (List Char) → Except PatternError Descriptor
  | [] => .error .empty
  | ws =>
    match ws.foldlM Draft.addWord {} with
    | .ok d => d.complete
    | .error e => .error e

/-- The descriptor that a pattern denotes. -/
def parse (pattern : String) : Except PatternError Descriptor :=
  ofWords (Text.words pattern.toList)

end Descriptor

end DecodeTrie
