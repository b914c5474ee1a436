import DecodeTrie.Handoff.Reader

/-!
# Numerals

A JSON numeral is a sign, a whole part, and perhaps a fraction and an exponent. The only numbers
wanted are natural numbers below 2⁶⁴, written without sign, fraction and exponent. Every other
numeral stands for a number of another shape, unless it is too large for a double-precision number:
such a text counts as malformed.

A numeral is converted to double precision in two roundings. Its digits make up a significand as
long as it stays below 2⁶⁴, and the digits behind only scale it; then the rounded significand is
multiplied by the rounded power of ten. `isTooLarge` computes that product exactly.
-/

namespace DecodeTrie.Handoff

/-- A numeral as it is written. -/
structure Numeral where
  /-- Whether there is a minus sign. -/
  negative : Bool
  /-- The digits before the point. -/
  whole : List Char
  /-- The digits behind the point. -/
  fraction : Option (List Char)
  /-- Whether the exponent is negative, and its digits. -/
  exponent : Option (Bool × List Char)
deriving DecidableEq, Repr

namespace Numeral

/-! ## Reading -/

/-- Reads one or more digits. -/
def digits : Reader (List Char) := fun s ↦
  match s with
  | [] => .error .ended
  | c :: _ => if c.isDigit then .ok (s.span Char.isDigit) else .error .malformed

/-- Reads the digits of the whole part, of which only a lone one can be zero. -/
def wholePart : Reader (List Char) := do
  let ds ← digits
  if ds.head? = some '0' && ds.length != 1 then fail .malformed else pure ds

/-- Reads a fraction, if there is one. -/
def fractionPart : Reader (Option (List Char)) := do
  match ← get with
  | '.' :: rest =>
    set rest
    return some (← digits)
  | _ => return none

/-- Reads an exponent, if there is one. -/
def exponentPart : Reader (Option (Bool × List Char)) := do
  match ← get with
  | 'e' :: rest | 'E' :: rest =>
    match rest with
    | '-' :: rest =>
      set rest
      return some (true, ← digits)
    | '+' :: rest =>
      set rest
      return some (false, ← digits)
    | _ =>
      set rest
      return some (false, ← digits)
  | _ => return none

/-- Reads a numeral, which starts with a minus sign or a digit. -/
def scan : Reader Numeral := do
  let negative := (← get).head? == some '-'
  if negative then advance
  let whole ← wholePart
  let fraction ← fractionPart
  let exponent ← exponentPart
  pure ⟨negative, whole, fraction, exponent⟩

/-! ## Values -/

/-- The value of a decimal digit. -/
def digitValue (c : Char) : Nat := c.toNat - 48

/-- The natural numbers wanted, and the significands, are those below this one. -/
def naturalLimit : Nat := 1 <<< 64

/-- Appends digits to a significand as long as it stays below 2⁶⁴, and gives the number of digits
left over. -/
def absorb (significand : Nat) : List Char → Nat × Nat
  | [] => (significand, 0)
  | d :: ds =>
    let next := 10 * significand + digitValue d
    if next < naturalLimit then absorb next ds else (significand, ds.length + 1)

/-- The number that the numeral stands for, if it is a natural number below 2⁶⁴ written plainly. -/
def natural? (n : Numeral) : Option Nat :=
  if n.negative || n.fraction.isSome || n.exponent.isSome then none
  else
    match absorb 0 n.whole with
    | (value, 0) => some value
    | _ => none

/-- The nearest number of 53 significant bits; of two, the even one. -/
def round53 (n : Nat) : Nat :=
  let shift := n.log2 - 52
  let floor := n >>> shift
  let rest := n - floor <<< shift
  let unit := 1 <<< shift
  let up := unit < 2 * rest || (2 * rest == unit && floor % 2 == 1 && shift != 0)
  (if up then floor + 1 else floor) <<< shift

/-- The significand and the power of ten that scales it. -/
def scaled (n : Numeral) : Nat × Int :=
  let (whole, excess) := absorb 0 n.whole
  let (significand, places) : Nat × Nat :=
    match n.fraction with
    | none => (whole, 0)
    | some ds =>
      let (s, left) := absorb whole ds
      (s, ds.length - left)
  let exponent : Int :=
    match n.exponent with
    | none => 0
    | some (negative, ds) =>
      let e : Nat := ds.foldl (fun e c ↦ 10 * e + digitValue c) 0
      if negative then -(e : Int) else e
  (significand, (excess : Int) - places + exponent)

/-- Whether the number is too large for double precision. -/
def isTooLarge (n : Numeral) : Bool :=
  match n.scaled with
  | (0, _) => false
  | (_, .negSucc _) => false
  | (significand, .ofNat power) =>
    308 < power || 1 <<< 1024 ≤ round53 (round53 significand * round53 (Nat.pow 10 power))

/-- Reads a numeral whose number is not too large. -/
def read : Reader Numeral := do
  let n ← scan
  if n.isTooLarge then fail .malformed else pure n

/-- Skips a numeral, however large. One that breaks off counts as malformed. -/
def skip : Reader Unit := fun s ↦
  match scan s with
  | .ok (_, rest) => .ok ((), rest)
  | .error _ => .error .malformed

end Numeral

end DecodeTrie.Handoff
