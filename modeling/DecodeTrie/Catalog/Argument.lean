import DecodeTrie.Error

/-!
# Arguments

An instruction declares its arguments with a size each; an encoding gives each of them a type, a
size and a value.

A size is written `B` and a decimal number for a fixed number of bytes; any other text names a size
class. The first argument of a class defines it, and later ones refer back to that argument.
`resolveSizes` turns the written sizes into those three cases. The signed code of a size is the
number of bytes, or names the defining argument by a negative number.
-/

namespace DecodeTrie

/-! ## Sizes -/

/-- The number of arguments that an instruction can have. -/
def maxArguments : Nat := 4

/-- The size of a declared argument. -/
inductive ArgSize
  /-- A number of bytes. -/
  | fixed (bytes : Nat)
  /-- A size class, defined by this argument. -/
  | sizeClass (name : String)
  /-- The size of an earlier argument. -/
  | sameAs (index : Nat)
deriving DecidableEq, Repr

namespace ArgSize

/-- The signed code of the size of argument `index`. -/
def code (index : Nat) : ArgSize → Int
  | fixed bytes => bytes
  | sizeClass _ => -(index + 1)
  | sameAs n => -(n + 1)

end ArgSize

/-- The number written by decimal digits. -/
def decimalValue (digits : List Char) : Nat :=
  digits.foldl (fun n c ↦ 10 * n + (c.toNat - 48)) 0

/-- The number behind a `B`, if the size is written that way. -/
def fixedNumber? (size : String) : Option Nat :=
  match size.toList with
  | 'B' :: digits =>
    if !digits.isEmpty && digits.all Char.isDigit then some (decimalValue digits) else none
  | _ => none

/-- Whether a number of bytes can be a fixed size. -/
def isFixedSize (bytes : Nat) : Bool := 1 ≤ bytes && bytes ≤ 127

/-- The number of bytes of a fixed size. -/
def fixedSize? (size : String) : Option Nat := (fixedNumber? size).filter isFixedSize

/-- An argument as it is declared. -/
structure ArgDecl where
  /-- The name of the argument. -/
  name : String
  /-- The size as it is written. -/
  size : String
deriving DecidableEq, Repr

/-- An argument of an instruction. -/
structure Argument where
  /-- The name of the argument. -/
  name : String
  /-- The size of the argument. -/
  size : ArgSize
deriving DecidableEq, Repr

/-- The size of an argument behind the given ones; the error is a fixed size out of range. -/
def resolveSize (earlier : List Argument) (size : String) : Except ArgumentFault ArgSize :=
  match fixedNumber? size with
  | some bytes => if isFixedSize bytes then .ok (.fixed bytes) else .error (.fixedSize size)
  | none =>
    match earlier.findIdx? fun a ↦ a.size == .sizeClass size with
    | some n => .ok (.sameAs n)
    | none => .ok (.sizeClass size)

/-- The arguments of an instruction behind the given ones. -/
def resolveSizesFrom (insn : String) (earlier : List Argument) :
    List ArgDecl → Except CompileError (List Argument)
  | [] => .ok earlier
  | d :: ds =>
    match resolveSize earlier d.size with
    | .ok size => resolveSizesFrom insn (earlier ++ [⟨d.name, size⟩]) ds
    | .error e => .error (.invalidArgument insn earlier.length e)

/-- The arguments of the instruction `insn`, or the first one whose size is out of range. -/
def resolveSizes (insn : String) (decls : List ArgDecl) : Except CompileError (List Argument) :=
  resolveSizesFrom insn [] decls

/-! ## Values -/

/-- The value of an argument of an encoding. -/
inductive ArgValue
  /-- Whatever the type of the argument implies. -/
  | default
  /-- A register, or memory, as ModRM says. -/
  | regOrMem
  /-- A number. -/
  | literal (value : Nat)
  /-- A name that is exported as a symbol. -/
  | named (name : String)
deriving DecidableEq, Repr

namespace ArgValue

/-- The byte code of a value; named values have none. -/
def code : ArgValue → Option Nat
  | default => some 0x80
  | regOrMem => some 0x81
  | literal v => some v
  | named _ => none

end ArgValue

/-- The value of an argument as it is declared. -/
inductive ArgValueDecl
  /-- A number. -/
  | int (value : Nat)
  /-- A name. -/
  | name (name : String)
deriving DecidableEq, Repr

/-- The value that a declaration denotes; two names are reserved and literals are at most 127. -/
def resolveValue : Option ArgValueDecl → Except ArgumentFault ArgValue
  | none => .ok .default
  | some (.int v) => if v ≤ 127 then .ok (.literal v) else .error (.literal v)
  | some (.name n) =>
    if n = "default" then .ok .default
    else if n = "reg_or_mem" then .ok .regOrMem
    else .ok (.named n)

/-- An argument of an encoding as it is declared. -/
structure EncodingArgDecl where
  /-- The type of the argument. -/
  argType : String
  /-- The size as it is written. -/
  size : String
  /-- The value as it is written. -/
  value : Option ArgValueDecl := none
deriving DecidableEq, Repr

/-- An argument of an encoding. -/
structure EncodingArg where
  /-- The type of the argument. -/
  argType : String
  /-- The size as it is written. -/
  size : String
  /-- The value of the argument. -/
  value : ArgValue
deriving DecidableEq, Repr

/-- The arguments of an encoding of `insn` from position `index` on. -/
def resolveValuesFrom (insn : String) (index : Nat) :
    List EncodingArgDecl → Except CompileError (List EncodingArg)
  | [] => .ok []
  | d :: ds =>
    match resolveValue d.value with
    | .error e => .error (.invalidArgument insn index e)
    | .ok value =>
      match resolveValuesFrom insn (index + 1) ds with
      | .ok args => .ok (⟨d.argType, d.size, value⟩ :: args)
      | .error e => .error e

/-- The arguments of an encoding of `insn`, or the first one whose literal is out of range. -/
def resolveValues (insn : String) (decls : List EncodingArgDecl) :
    Except CompileError (List EncodingArg) :=
  resolveValuesFrom insn 0 decls

end DecodeTrie
