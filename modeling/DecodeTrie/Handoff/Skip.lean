import DecodeTrie.Handoff.Container
import DecodeTrie.Handoff.Numeral

/-!
# Skipping values

The value of a key that a record does not have is skipped. It may be nested to any depth, and so
the open containers are kept in a list instead of opening them one inside the other.
-/

namespace DecodeTrie.Handoff

/-- A container that is being skipped. -/
inductive Container
  | list
  | object
deriving DecidableEq, Repr

/-- The closing character of a container. -/
def Container.closing : Container → Char
  | list => ']'
  | object => '}'

/-- What comes next while values are skipped. -/
inductive Awaited
  /-- A value. -/
  | value
  /-- The first part of the innermost container, or its end. -/
  | first
  /-- A separator in the innermost container, or its end. -/
  | separator
deriving DecidableEq, Repr

/-- Skips the key of a member, if the container has keys. -/
def skipKey : Container → Reader Unit
  | .list => pure ()
  | .object => do
    punctuation '"'
    Strings.skipBody
    punctuation ':'

/-- Skips a value that is no container. -/
def skipScalar (c : Char) : Reader Unit := do
  if c = 'n' then word ['n', 'u', 'l', 'l']
  else if c = 't' then word ['t', 'r', 'u', 'e']
  else if c = 'f' then word ['f', 'a', 'l', 's', 'e']
  else if c = '"' then do
    advance
    Strings.skipBody
  else if c = '-' || c.isDigit then Numeral.skip
  else fail .malformed

/-- Skips the rest of some containers, innermost first, in at most `bound` steps. -/
def skipWithin : Nat → Awaited → List Container → Reader Unit
  | 0, _, _ => fail .ended
  | bound + 1, .value, outer => do
    let c ← peek
    if c = '[' then do
      advance
      skipWithin bound .first (.list :: outer)
    else if c = '{' then do
      advance
      skipWithin bound .first (.object :: outer)
    else do
      skipScalar c
      skipWithin bound .separator outer
  | _ + 1, _, [] => pure ()
  | bound + 1, .first, inner :: outer => do
    let c ← peek
    if c = inner.closing then do
      advance
      skipWithin bound .separator outer
    else do
      skipKey inner
      skipWithin bound .value (inner :: outer)
  | bound + 1, .separator, inner :: outer => do
    let c ← peek
    if c = inner.closing then do
      advance
      skipWithin bound .separator outer
    else do
      punctuation ','
      skipKey inner
      skipWithin bound .value (inner :: outer)

/-- Skips a value, however deep. No two steps in a row leave the text as it is. -/
def skipValue : Reader Unit := fun s ↦ skipWithin (2 * s.length + 3) .value [] s

end DecodeTrie.Handoff
