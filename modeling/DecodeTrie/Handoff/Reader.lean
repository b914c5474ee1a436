/-!
# Reading hand-off text

Catalogs and options are handed in as JSON text. The text is read from left to right straight into
the records that it describes, and reading stops at the first problem in text order. Problems are
of three kinds: the text ends too early, it is not JSON, or it is JSON of another shape than what
is wanted. A text with several problems is judged by the first one alone, and so the shape is
checked while the text is read and not afterwards.

This module has the steps that every reader is made from.
-/

namespace DecodeTrie.Handoff

/-- The kind of the first problem of a text. -/
inductive Fault
  /-- The text ends too early. -/
  | ended
  /-- The text is not JSON. -/
  | malformed
  /-- The text is JSON of another shape. -/
  | mismatch
deriving DecidableEq, Repr

/-- A step that reads something from the front of the text that is left. -/
abbrev Reader := StateT (List Char) (Except Fault)

/-- A reader that is told how many containers it may open one inside the other, and one more. -/
abbrev Form (α : Type) := Nat → Reader α

/-- The number of containers that may be open at once, and one more. -/
def openLimit : Nat := 128

/-- Whether a character separates the parts of a JSON text. -/
def isSpace (c : Char) : Bool := c == ' ' || c == '\n' || c == '\t' || c == '\r'

/-- Stops with a fault. -/
def fail {α : Type} (f : Fault) : Reader α := fun _ ↦ .error f

/-- The next character that is no space; it stays in the text. -/
def peek : Reader Char := fun s ↦
  match s.dropWhile isSpace with
  | [] => .error .ended
  | c :: cs => .ok (c, c :: cs)

/-- Skips the next character. -/
def advance : Reader Unit := fun s ↦ .ok ((), s.tail)

/-- Reads the characters of a literal word. -/
def word : List Char → Reader Unit
  | [] => pure ()
  | w :: ws => fun s ↦
    match s with
    | [] => .error .ended
    | c :: cs => if c = w then word ws cs else .error .malformed

/-- Reads a given punctuation character. -/
def punctuation (c : Char) : Reader Unit := do
  let d ← peek
  if d = c then advance else fail .malformed

/-- Reads the opening character of a container and what is inside, if one more may be opened. -/
def enter {α : Type} (room : Nat) (inner : Form α) : Reader α :=
  match room with
  | 0 | 1 => fail .malformed
  | inside + 1 => do
    advance
    inner inside

end DecodeTrie.Handoff
