import DecodeTrie.Opcode.Token

/-!
# Writing descriptors

A descriptor has one canonical pattern (prefixes, opcode bytes, extra byte, ModRM fields, joined by
single spaces) and one packed record of bit-field codes.
-/

namespace DecodeTrie

namespace OpSize

/-- The tokens of a constraint on the operand-size prefix. -/
def tokens : OpSize → List Token
  | optional => []
  | forbidden => [.opSize false]
  | required => [.opSize true]

/-- The bit-field code of a constraint on the operand-size prefix. -/
def code : OpSize → Nat
  | optional => 0
  | forbidden => 1
  | required => 2

end OpSize

namespace Repeat

/-- The tokens of a constraint on the repeat prefixes. -/
def tokens : Repeat → List Token
  | optional => []
  | forbidden => [.rep .none]
  | f2 => [.rep .f2]
  | f3 => [.rep .f3]

/-- The bit-field code of a constraint on the repeat prefixes. -/
def code : Repeat → Nat
  | forbidden => 0
  | optional => 1
  | f2 => 2
  | f3 => 3

end Repeat

namespace OpcodeForm

/-- The tokens of the opcode bytes. -/
def tokens : OpcodeForm → List Token
  | oneByte p x => .opcode p :: (x.map Token.extra).toList
  | twoByte p x => .escape :: .opcode p :: (x.map Token.extra).toList
  | threeDNow b => [.escape, .escape, .extra b]

/-- The opcode map and opcode byte in one number: the maps start at `0x000`, `0x100`, `0x200`. -/
def primaryCode : OpcodeForm → Nat
  | oneByte p _ => p.toNat
  | twoByte p _ => 0x100 + p.toNat
  | threeDNow _ => 0x20f

/-- The extra or trailing opcode byte, `0x100` for none. -/
def extraCode : OpcodeForm → Nat
  | oneByte _ x => (x.map UInt8.toNat).getD 0x100
  | twoByte _ x => (x.map UInt8.toNat).getD 0x100
  | threeDNow b => b.toNat

end OpcodeForm

namespace ModeField

/-- The tokens of a constraint on the mode. -/
def tokens : ModeField → List Token
  | any => []
  | only m => [.mode m]
  | memory => [.memory]

/-- The bit-field code of a constraint on the mode: a mode, 4 for memory, 7 for none. -/
def code : ModeField → Nat
  | only m => m
  | memory => 4
  | any => 7

end ModeField

namespace RegField

/-- The bit-field code of a constraint on the register: a register, 8 for an operand. -/
def code : RegField → Nat
  | only r => r
  | any => 8

end RegField

namespace RegForm

/-- The tokens of a constraint on the upper bits of ModRM. -/
def tokens (f : RegForm) : List Token := .reg f.reg :: f.mode.tokens

end RegForm

/-- The bit-field codes of a descriptor. -/
structure PackedOpcode where
  /-- The operand-size prefix: 0 optional, 1 forbidden, 2 required. -/
  op66 : Nat
  /-- The opcode map and opcode byte. -/
  opcode1 : Nat
  /-- The extra opcode byte, `0x100` for none. -/
  opcode2 : Nat
  /-- The mode, 4 for memory, 7 for none. -/
  mode : Nat
  /-- The register, 8 for an operand, 15 for none. -/
  regop : Nat
  /-- The r/m value, 15 for none. -/
  rm : Nat
  /-- The repeat prefixes: 0 forbidden, 1 optional, 2 for `f2`, 3 for `f3`. -/
  fx : Nat
deriving DecidableEq, Repr

namespace Descriptor

/-- The tokens of a descriptor in canonical order. -/
def tokens (d : Descriptor) : List Token :=
  d.opSize.tokens ++ d.rep.tokens ++ d.form.tokens ++ (d.regForm.map RegForm.tokens).getD [] ++
    (d.rm.map Token.rm).toList

/-- The canonical pattern of a descriptor. -/
def render (d : Descriptor) : String :=
  String.ofList ([' '].intercalate (d.tokens.map Token.chars))

/-- The bit-field codes of a descriptor. -/
def packed (d : Descriptor) : PackedOpcode where
  op66 := d.opSize.code
  opcode1 := d.form.primaryCode
  opcode2 := d.form.extraCode
  mode := (d.regForm.map fun f ↦ f.mode.code).getD 7
  regop := (d.regForm.map fun f ↦ f.reg.code).getD 15
  rm := (d.rm.map Fin.val).getD 15
  fx := d.rep.code

end Descriptor

end DecodeTrie
