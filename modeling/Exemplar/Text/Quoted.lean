import Exemplar.Text.Hex
import Exemplar.Text.Invisible

/-!
# Quoted text

Text between double quotes that shows every character: quotes and backslashes are written with a
backslash, the common controls by their letters, and whatever else does not show by its code point
in braces.
-/

namespace Exemplar

/-- How a character is written between double quotes. -/
def quotedChar (c : Char) : List Char :=
  match c with
  | '"' => ['\\', '"']
  | '\\' => ['\\', '\\']
  | '\x00' => ['\\', '0']
  | '\t' => ['\\', 't']
  | '\n' => ['\\', 'n']
  | '\r' => ['\\', 'r']
  | c => if isInvisible c then ['\\', 'u', '{'] ++ lowerHex c.toNat ++ ['}'] else [c]

/-- A text between double quotes. -/
def quoted (s : String) : String :=
  String.ofList ('"' :: s.toList.flatMap quotedChar ++ ['"'])

end Exemplar
