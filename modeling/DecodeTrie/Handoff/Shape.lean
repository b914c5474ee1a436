import DecodeTrie.Handoff.Skip

/-!
# Values

Readers for strings, truth values, natural numbers and lists, and for a value of any shape. A value
of another shape than what is wanted is a fault, but a malformed one is called malformed first: a
number or string is read to its end before it is refused. A container is refused when it opens.
-/

namespace DecodeTrie.Handoff

/-! ## Values of one shape -/

/-- Reads the number or word that is next, or the opening of a container, and finds that it is not
what is wanted. -/
def unwanted {α : Type} : Reader α := do
  let c ← peek
  if c = 'n' then word ['n', 'u', 'l', 'l']
  else if c = 't' then word ['t', 'r', 'u', 'e']
  else if c = 'f' then word ['f', 'a', 'l', 's', 'e']
  else if c = '"' then do
    advance
    let _ ← Strings.body
  else if c = '-' || c.isDigit then do
    let _ ← Numeral.read
  else if c = '[' || c = '{' then pure ()
  else fail .malformed
  fail .mismatch

/-- Reads a string. -/
def text : Form String := fun _ ↦ do
  if (← peek) = '"' then do
    advance
    Strings.body
  else unwanted

/-- Reads a truth value. -/
def bool : Form Bool := fun _ ↦ do
  let c ← peek
  if c = 't' then do
    word ['t', 'r', 'u', 'e']
    pure true
  else if c = 'f' then do
    word ['f', 'a', 'l', 's', 'e']
    pure false
  else unwanted

/-- Reads a natural number below 2⁶⁴. -/
def natural : Form Nat := fun _ ↦ do
  let c ← peek
  if c = '-' || c.isDigit then do
    match (← Numeral.read).natural? with
    | some n => pure n
    | none => fail .mismatch
  else unwanted

/-- Reads a list. -/
def list {α : Type} (element : Form α) : Form (List α) := fun room ↦ do
  if (← peek) = '[' then enter room fun inside ↦ elements (element inside) else unwanted

/-! ## Values of any shape -/

/-- What a value of any shape is. -/
inductive Content
  /-- A natural number below 2⁶⁴. -/
  | natural (value : Nat)
  /-- A string. -/
  | text (value : String)
  /-- Anything else. -/
  | other
deriving DecidableEq, Repr

/-- Reads a value of any shape. -/
def anyValue : Form Content
  | 0 => fail .malformed
  | room + 1 => do
    let c ← peek
    if c = '"' then do
      advance
      return .text (← Strings.body)
    else if c = '-' || c.isDigit then do
      match (← Numeral.read).natural? with
      | some n => return .natural n
      | none => return .other
    else if c = '[' then
      if room = 0 then fail .malformed
      else do
        advance
        let _ ← elements (anyValue room)
        return .other
    else if c = '{' then
      if room = 0 then fail .malformed
      else do
        advance
        members (fun _ _ ↦ do
          punctuation ':'
          let _ ← anyValue room) ()
        advance
        return .other
    else do
      skipScalar c
      return .other

end DecodeTrie.Handoff
