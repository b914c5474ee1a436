import DecodeTrie.Text.Hex
import DecodeTrie.Text.Printable

/-!
# Quoted literals

A text is quoted by writing each character for itself or as an escape between two double quotes.
Six characters have a short escape, and the ones that are not printable are written by their code
points. So a quoted text never contains a line break.
-/

namespace DecodeTrie.Text

/-- A character as it is written in a quoted literal. -/
def escapeChar (c : Char) : List Char :=
  if c = '\x00' then ['\\', '0']
  else if c = '\t' then ['\\', 't']
  else if c = '\r' then ['\\', 'r']
  else if c = '\n' then ['\\', 'n']
  else if c = '"' then ['\\', '"']
  else if c = '\\' then ['\\', '\\']
  else if isPrintable c then [c]
  else ['\\', 'u', '\x7b'] ++ hexDigits c.toNat ++ ['\x7d']

/-- A text as a quoted literal. -/
def quoted (s : String) : String :=
  String.ofList ('"' :: s.toList.flatMap escapeChar ++ ['"'])

end DecodeTrie.Text
