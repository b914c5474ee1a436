/-!
# Hexadecimal digits

Bytes are read from one or two hexadecimal digits in either case, and written as exactly two in
lower case. Larger numbers are written in lower case, padded with zeros where a fixed width is
asked for. The main statement is `hexByte?_byteDigits`: what is written for a byte reads back.
-/

namespace DecodeTrie.Text

/-! ## Reading -/

/-- The value of an ASCII hexadecimal digit, in either case. -/
def hexDigit? (c : Char) : Option Nat :=
  if 48 ≤ c.toNat ∧ c.toNat ≤ 57 then some (c.toNat - 48)
  else if 97 ≤ c.toNat ∧ c.toNat ≤ 102 then some (c.toNat - 87)
  else if 65 ≤ c.toNat ∧ c.toNat ≤ 70 then some (c.toNat - 55)
  else none

/-- A byte of one or two digits. -/
def hexByte? : List Char → Option UInt8
  | [c] => (hexDigit? c).map UInt8.ofNat
  | [c, d] =>
    match hexDigit? c, hexDigit? d with
    | some hi, some lo => some (UInt8.ofNat (16 * hi + lo))
    | _, _ => none
  | _ => none

/-! ## Writing -/

/-- The lower-case digits of a number, without leading zeros. -/
def hexDigits (n : Nat) : List Char := Nat.toDigits 16 n

/-- The two lower-case digits of a byte. -/
def byteDigits (b : UInt8) : List Char :=
  [Nat.digitChar (b.toNat / 16), Nat.digitChar (b.toNat % 16)]

/-- A number as `0x` and its digits. -/
def hexLiteral (n : Nat) : String := "0x" ++ String.ofList (hexDigits n)

/-- A number as `0x` and at least `width` digits. -/
def paddedHexLiteral (width n : Nat) : String :=
  "0x" ++ String.ofList ((hexDigits n).leftpad width '0')

/-- A digit that is written reads back. -/
theorem hexDigit?_digitChar {n : Nat} (h : n < 16) : hexDigit? (Nat.digitChar n) = some n := by
  match n, h with
  | 0, _ | 1, _ | 2, _ | 3, _ | 4, _ | 5, _ | 6, _ | 7, _ => rfl
  | 8, _ | 9, _ | 10, _ | 11, _ | 12, _ | 13, _ | 14, _ | 15, _ => rfl
  | _ + 16, h => omega

/-- The two digits written for a byte read back. -/
theorem hexByte?_byteDigits (b : UInt8) : hexByte? (byteDigits b) = some b := by
  have hb : b.toNat < 256 := b.toNat_lt
  have hi : b.toNat / 16 < 16 := by omega
  have lo : b.toNat % 16 < 16 := by omega
  simp only [hexByte?, byteDigits, hexDigit?_digitChar hi, hexDigit?_digitChar lo, Nat.div_add_mod,
    UInt8.ofNat_toNat]

end DecodeTrie.Text
