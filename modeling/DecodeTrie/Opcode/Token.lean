import DecodeTrie.Opcode.Descriptor
import DecodeTrie.Opcode.Error
import DecodeTrie.Text.Hex

/-!
# Words of opcode patterns

A pattern such as `66 0f 38 &00 /r` or `d9 /2 /mod_3 /rm_0` is a sequence of words, and each word
alone denotes one token:

| word               | token                                                   |
|--------------------|---------------------------------------------------------|
| `xx` (1-2 digits)  | an opcode byte, unless it is one of the next three kinds |
| `0f`               | the escape                                              |
| `66`, `f2`, `f3`   | a mandatory prefix                                      |
| `no66`, `nofx`     | the operand-size or repeat prefix must be absent        |
| `&xx`              | an extra opcode byte                                    |
| `/r`, `/0`..`/7`   | ModRM.reg is an operand, or extends the opcode          |
| `/mod_m`           | any memory mode                                         |
| `/mod_0`..`/mod_3` | one mode                                                |
| `/rm_0`..`/rm_7`   | one r/m value                                           |

Each token has one canonical word. The main statement is `read_chars`: it reads back, unless it is
the word of an opcode byte that stands for an escape or a prefix.
-/

namespace DecodeTrie

/-- What one word of a pattern denotes. -/
inductive Token
  /-- The escape `0f`. -/
  | escape
  /-- The operand-size prefix, present or absent. -/
  | opSize (present : Bool)
  /-- The repeat prefix, with `none` for its absence. -/
  | rep (state : RepState)
  /-- An opcode byte. -/
  | opcode (byte : UInt8)
  /-- An extra opcode byte. -/
  | extra (byte : UInt8)
  /-- A register constraint. -/
  | reg (field : RegField)
  /-- One mode. -/
  | mode (mode : Fin 4)
  /-- The memory modes. -/
  | memory
  /-- An r/m constraint. -/
  | rm (rm : Fin 8)
deriving DecidableEq, Repr

namespace Token

/-! ## Reading -/

/-- A single decimal digit below `bound`. -/
def digit? (bound : Nat) : List Char → Option (Fin bound)
  | [c] =>
    if h : 48 ≤ c.toNat ∧ c.toNat - 48 < bound ∧ c.toNat - 48 ≤ 9 then some ⟨c.toNat - 48, h.2.1⟩
    else none
  | _ => none

/-- The token of a plain byte. -/
def ofByte (b : UInt8) : Token :=
  if b = 0x0f then escape
  else if b = 0x66 then opSize true
  else if b = 0xf2 then rep .f2
  else if b = 0xf3 then rep .f3
  else opcode b

/-- The token that a word denotes. A word that should be a byte and has the length of one, in
UTF-8, is called an invalid byte; any other word of no known form is called unknown. -/
def read (word : List Char) : Except PatternError Token :=
  match word with
  | ['n', 'o', 'f', 'x'] => .ok (rep .none)
  | ['n', 'o', '6', '6'] => .ok (opSize false)
  | ['/', 'r'] => .ok (reg .any)
  | ['/', 'm', 'o', 'd', '_', 'm'] => .ok memory
  | '&' :: digits =>
    match Text.hexByte? digits with
    | some b => .ok (extra b)
    | none => .error (.invalidHex (String.ofList word))
  | '/' :: 'm' :: 'o' :: 'd' :: '_' :: digits =>
    match digit? 4 digits with
    | some m => .ok (mode m)
    | none => .error (.unknownToken (String.ofList word))
  | '/' :: 'r' :: 'm' :: '_' :: digits =>
    match digit? 8 digits with
    | some r => .ok (rm r)
    | none => .error (.unknownToken (String.ofList word))
  | '/' :: digits =>
    match digit? 8 digits with
    | some r => .ok (reg (.only r))
    | none => .error (.unknownToken (String.ofList word))
  | digits =>
    match Text.hexByte? digits with
    | some b => .ok (ofByte b)
    | none =>
      if (String.ofList word).utf8ByteSize ≤ 2 then .error (.invalidHex (String.ofList word))
      else .error (.unknownToken (String.ofList word))

/-! ## Writing -/

/-- The canonical word of a token. -/
def chars : Token → List Char
  | escape => ['0', 'f']
  | opSize true => ['6', '6']
  | opSize false => ['n', 'o', '6', '6']
  | rep .f2 => ['f', '2']
  | rep .f3 => ['f', '3']
  | rep .none => ['n', 'o', 'f', 'x']
  | opcode b => Text.byteDigits b
  | extra b => '&' :: Text.byteDigits b
  | reg .any => ['/', 'r']
  | reg (.only r) => ['/', Nat.digitChar r]
  | mode m => ['/', 'm', 'o', 'd', '_', Nat.digitChar m]
  | memory => ['/', 'm', 'o', 'd', '_', 'm']
  | rm r => ['/', 'r', 'm', '_', Nat.digitChar r]

/-! ## Reading back -/

/-- A hexadecimal digit begins neither an extra byte nor a ModRM field. -/
theorem digitChar_ne {n : Nat} (h : n < 16) :
    Nat.digitChar n ≠ '&' ∧ Nat.digitChar n ≠ '/' := by
  revert h; revert n; decide

/-- The digits of a byte are read as that byte. -/
theorem read_byteDigits (b : UInt8) : read (Text.byteDigits b) = .ok (ofByte b) := by
  have hi : b.toNat / 16 < 16 := by have := b.toNat_lt; omega
  obtain ⟨amp, slash⟩ := digitChar_ne hi
  rw [read]
  · rw [Text.hexByte?_byteDigits]
  all_goals simp [Text.byteDigits, amp, slash]

/-- The word of an extra byte is read as that byte. -/
theorem read_extra (b : UInt8) : read ('&' :: Text.byteDigits b) = .ok (extra b) := by
  rw [read, Text.hexByte?_byteDigits]

theorem digit?_digitChar {bound : Nat} (hb : bound ≤ 10) (r : Fin bound) :
    digit? bound [Nat.digitChar r] = some r := by
  have hr : r.val < 10 := by omega
  have hc : (Nat.digitChar r).toNat = 48 + r := Nat.toNat_digitChar_of_lt_ten hr
  have h : 48 ≤ (Nat.digitChar r).toNat ∧ (Nat.digitChar r).toNat - 48 < bound ∧
      (Nat.digitChar r).toNat - 48 ≤ 9 := by omega
  rw [digit?, dif_pos h]
  simp [hc]

/-- The canonical word of a token is read as that token, except for an opcode byte whose word
denotes something else. -/
theorem read_chars {t : Token} (h : ∀ b, t = opcode b → ofByte b = opcode b) :
    read t.chars = .ok t := by
  cases t with
  | escape => rfl
  | opSize present => cases present <;> rfl
  | rep state => cases state <;> rfl
  | opcode b => rw [chars, read_byteDigits, h b rfl]
  | extra b => exact read_extra b
  | reg field =>
    cases field with
    | any => rfl
    | only r => match r with | 0 | 1 | 2 | 3 | 4 | 5 | 6 | 7 => rfl
  | mode m => match m with | 0 | 1 | 2 | 3 => rfl
  | memory => rfl
  | rm r => rw [chars, read, digit?_digitChar (by decide)]

end Token

end DecodeTrie
