/-!
# Names of constants

Each exported symbol becomes a constant, whose name is made from a prefix, the class of the symbol
and the name of the symbol in capitals. Different symbols can come to the same name; the second and
later ones get a number behind it. A name is claimed by choosing the first of those candidates that
nobody has claimed, and there is one among the first `n + 1` candidates if `n` names are claimed.

The numbers behind names are natural numbers here. A loop that keeps the next number as a signed
integer of 32 bits makes the same claims while fewer than `2 ^ 31 - 2` names are claimed, because
the next number is never more than two above the number of claimed names.
-/

namespace DecodeTrie.Render

/-- A character as it stands in the name of a constant. -/
def nameChar (c : Char) : Char := if c.isAlphanum then c.toUpper else '_'

/-- The name of a constant without prefix: in capitals, starting with the class. -/
def constantName (cls raw : String) : List Char :=
  let ident := raw.toList.map nameChar
  if cls.toList.isPrefixOf ident then ident else cls.toList ++ ident

/-- The name that a symbol has unless it is claimed. -/
def baseName (symbolPrefix cls raw : String) : String :=
  symbolPrefix ++ String.ofList (constantName cls raw)

/-- The candidates for a name: the name itself, and then the name with 2, 3 and so on behind it. -/
def candidate (base : String) : Nat → String
  | 0 => base
  | n + 1 => base ++ "_" ++ toString (n + 2)

/-- The claimed names. -/
abbrev Names := List String

/-- The first candidate that is not claimed. -/
def freeName (taken : Names) (base : String) : String :=
  ((List.range (taken.length + 1)).findSome? fun n ↦
    if taken.contains (candidate base n) then none else some (candidate base n)).getD base

/-- Claims a name for a symbol. -/
def claim (symbolPrefix cls raw : String) : StateM Names String := fun taken ↦
  let name := freeName taken (baseName symbolPrefix cls raw)
  (name, name :: taken)

/-! ## Several claims -/

/-- What a name is claimed for. -/
structure NameRequest where
  /-- What the name starts with. -/
  symbolPrefix : String
  /-- The class of the symbol. -/
  cls : String
  /-- The name of the symbol itself. -/
  raw : String
deriving DecidableEq, Repr

/-- Claims names for symbols, one after the other, and gives them in this order. -/
def claimAll : List NameRequest → StateM Names (List String)
  | [] => pure []
  | r :: requests => do
    let name ← claim r.symbolPrefix r.cls r.raw
    let names ← claimAll requests
    pure (name :: names)

end DecodeTrie.Render
