/-!
# Errors of opcode patterns

Why a pattern denotes no descriptor. An error that blames a word carries it as it was written.
-/

namespace DecodeTrie

/-- Why an opcode pattern denotes no descriptor. -/
inductive PatternError
  /-- The pattern has no words. -/
  | empty
  /-- A word of no known form. -/
  | unknownToken (word : String)
  /-- A word that should be a hexadecimal byte and is none. -/
  | invalidHex (word : String)
  /-- A second opcode byte. -/
  | tooManyOpcodeBytes (word : String)
  /-- An escape after the opcode byte, or a third escape. -/
  | misplacedEscape
  /-- A second extra opcode byte. -/
  | tooManyExtraBytes (word : String)
  /-- No opcode byte. -/
  | missingOpcode
  /-- The 3DNow! form without its trailing byte. -/
  | missingTrailingOpcode
  /-- A prefix word against an earlier one. -/
  | conflictingPrefix (word : String)
  /-- A ModRM field constrained twice. -/
  | repeatedField (word : String)
  /-- A mode without a register. -/
  | modeWithoutRegister
deriving DecidableEq, Repr

namespace PatternError

/-- The wording of an error. -/
def message : PatternError → String
  | empty => "empty opcode string"
  | unknownToken w => "unknown token `" ++ w ++ "`"
  | invalidHex w => "invalid hex byte `" ++ w ++ "`"
  | tooManyOpcodeBytes w => "too many opcode bytes at `" ++ w ++ "`"
  | misplacedEscape => "`0f` escape may appear at most twice and only before the opcode byte"
  | tooManyExtraBytes w => "more than one extra opcode byte at `" ++ w ++ "`"
  | missingOpcode => "no primary opcode byte"
  | missingTrailingOpcode => "`0f 0f` form requires a trailing `&xx` opcode byte"
  | conflictingPrefix w => "`" ++ w ++ "` contradicts an earlier prefix token"
  | repeatedField w => "`" ++ w ++ "` repeats a ModRM field that is already constrained"
  | modeWithoutRegister => "a ModRM.mod constraint requires `/r` or `/0`..`/7`"

end PatternError

end DecodeTrie
