import Exemplar.CharClass
import Exemplar.Pattern.Error

/-!
# Escapes

How a character is written in a pattern so that it stands for itself, and what a backslash and the
characters after it mean.

## Main definitions

* `escape`: a character as it is written in a pattern
* `Escape.readChar`: the character that an escape stands for
* `Escape.read`: the class that an escape outside of brackets stands for

A reader returns what it read together with the number of characters that it took.
-/

namespace Exemplar.Pattern

/-- The characters with a meaning of their own in a pattern. -/
def syntaxChars : List Char :=
  ['\\', '^', '$', '.', '|', '?', '*', '+', '(', ')', '[', ']', '{', '}']

/-- The characters with a meaning of their own between brackets. -/
def bracketChars : List Char := ['\\', ']', '[', '^', '-']

/-- Whether `c` is a control character. -/
def isControl (c : Char) : Bool := c.toNat < 0x20 || (0x7F ≤ c.toNat && c.toNat < 0xA0)

/-- A character as it is written where the characters in `reserved` have a meaning of their own:
these with a backslash, controls and characters beyond U+00FF by their code points, and the common
controls by their letters. -/
def escape (reserved : List Char) (c : Char) : List Char :=
  match c with
  | '\t' => ['\\', 't']
  | '\n' => ['\\', 'n']
  | '\r' => ['\\', 'r']
  | '\x0B' => ['\\', 'v']
  | '\x0C' => ['\\', 'f']
  | '\x00' => ['\\', '0']
  | c =>
    if c ∈ reserved then ['\\', c]
    else if isControl c || 0xFF < c.toNat then '\\' :: 'u' :: upperHex 4 c.toNat
    else [c]

/-- Whether `c` is a letter without accent. -/
def isPlainLetter (c : Char) : Bool := ('a' ≤ c && c ≤ 'z') || ('A' ≤ c && c ≤ 'Z')

namespace Escape

/-- The character that exactly `width` hexadecimal digits stand for. -/
def readHex (width : Nat) (malformed : Reason) (rest : List Char) : Except Reason (Char × Nat) :=
  let digits := rest.take width
  match if digits.length = width then hexValue? digits else none with
  | none => .error malformed
  | some value =>
    match charAt? value with
    | none => .error .loneSurrogate
    | some c => .ok (c, width)

/-- The character that the escape with the letter `c` stands for, read from what follows `c`. -/
def readChar (c : Char) (rest : List Char) : Except Reason (Char × Nat) :=
  match c with
  | 't' => .ok ('\t', 0)
  | 'n' => .ok ('\n', 0)
  | 'r' => .ok ('\r', 0)
  | 'f' => .ok ('\x0C', 0)
  | 'v' => .ok ('\x0B', 0)
  | '0' => if rest.head?.any Char.isDigit then .error .octalEscape else .ok ('\x00', 0)
  | 'c' =>
    match rest.head?.filter isPlainLetter with
    | some letter => .ok (Char.ofNat (letter.toNat % 32), 1)
    | none => .error .controlEscape
  | 'x' => readHex 2 .hexEscape rest
  | 'u' => readHex 4 .unicodeEscape rest
  | c => .ok (c, 0)

/-- The set that an escape with the letter `c` names, and whether it names the characters in the
set or those outside of it. -/
def namedSet? (space : CharSet) : Char → Option (CharSet × Bool)
  | 'd' => some (.digits, true)
  | 'D' => some (.digits, false)
  | 'w' => some (.wordChars, true)
  | 'W' => some (.wordChars, false)
  | 's' => some (space, true)
  | 'S' => some (space, false)
  | _ => none

/-- The class that an escape outside of brackets stands for, read from what follows the
backslash. -/
def read (space : CharSet) : List Char → Except Reason (CharClass × Nat)
  | [] => .error .backslashAtEnd
  | c :: rest =>
    if c = 'b' ∨ c = 'B' then .error .wordBoundary
    else if '1' ≤ c ∧ c ≤ '9' then .error .backreference
    else if c = 'k' then .error .namedBackreference
    else match namedSet? space c with
      | some (set, true) => .ok (.anyOf set, 1)
      | some (set, false) => .ok (.noneOf set, 1)
      | none => (readChar c rest).map fun (value, taken) => (.literal value, taken + 1)

end Escape

end Exemplar.Pattern
