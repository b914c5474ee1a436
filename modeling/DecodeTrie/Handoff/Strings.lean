import DecodeTrie.Handoff.Reader
import DecodeTrie.Text.Hex

/-!
# Strings

A JSON string stands between double quotes. Characters outside the basic plane may be written as
two escapes, one for each half of a surrogate pair, and a half without the other is malformed. A
string that is skipped is held to the same form, except that halves need not pair.
-/

namespace DecodeTrie.Handoff.Strings

/-- The character that an escape of one letter stands for. -/
def shortEscape? : Char → Option Char
  | '"' => some '"'
  | '\\' => some '\\'
  | '/' => some '/'
  | 'b' => some '\x08'
  | 'f' => some '\x0c'
  | 'n' => some '\n'
  | 'r' => some '\r'
  | 't' => some '\t'
  | _ => none

/-- Reads four hexadecimal digits. The text ends too early if there are no four bytes left. -/
def fourDigits : Reader Nat := fun s ↦
  match s with
  | a :: b :: c :: d :: rest =>
    match Text.hexDigit? a, Text.hexDigit? b, Text.hexDigit? c, Text.hexDigit? d with
    | some w, some x, some y, some z => .ok (((16 * w + x) * 16 + y) * 16 + z, rest)
    | _, _, _, _ => .error .malformed
  | _ => .error (if (String.ofList s).utf8ByteSize < 4 then .ended else .malformed)

/-- Whether a number is the first half of a surrogate pair. -/
def isHighHalf (n : Nat) : Bool := 0xd800 ≤ n && n ≤ 0xdbff

/-- Whether a number is the second half of a surrogate pair. -/
def isLowHalf (n : Nat) : Bool := 0xdc00 ≤ n && n ≤ 0xdfff

/-- Reads one given character. -/
def exactly (c : Char) : Reader Unit := word [c]

/-- Reads the rest of a numeric escape. -/
def numericEscape : Reader Char := do
  let n ← fourDigits
  if isLowHalf n then fail .malformed
  else if isHighHalf n then do
    exactly '\\'
    exactly 'u'
    let m ← fourDigits
    if isLowHalf m then pure (Char.ofNat ((n - 0xd800) * 0x400 + (m - 0xdc00) + 0x10000))
    else fail .malformed
  else pure (Char.ofNat n)

/-- Reads one character of a string, and nothing at its end. -/
def nextChar (numeric : Reader Char) : Reader (Option Char) := fun s ↦
  match s with
  | [] => .error .ended
  | '"' :: rest => .ok (none, rest)
  | ['\\'] => .error .ended
  | '\\' :: 'u' :: rest => (some <$> numeric) rest
  | '\\' :: e :: rest =>
    match shortEscape? e with
    | some c => .ok (some c, rest)
    | none => .error .malformed
  | c :: rest => if c.toNat < 0x20 then .error .malformed else .ok (some c, rest)

/-- Reads at most `bound` characters of a string, up to its end. -/
def charsWithin (numeric : Reader Char) : Nat → Reader (List Char)
  | 0 => fail .ended
  | bound + 1 => do
    match ← nextChar numeric with
    | none => pure []
    | some c => return c :: (← charsWithin numeric bound)

/-- Reads a string behind its opening quote. Each character takes at least one of the text. -/
def body : Reader String := fun s ↦
  (charsWithin numericEscape (s.length + 1) s).map fun r ↦ (String.ofList r.1, r.2)

/-- Skips a string behind its opening quote. -/
def skipBody : Reader Unit := fun s ↦
  (charsWithin (Char.ofNat <$> fourDigits) (s.length + 1) s).map fun r ↦ ((), r.2)

end DecodeTrie.Handoff.Strings
