import Exemplar.Extent
import Exemplar.Pattern.Bracket
import Exemplar.Text.Decimal
import Exemplar.Text.Letters

/-!
# Tokens

A pattern is cut into tokens: the signs of its structure, its quantifiers, and its atoms, each a
class for one character. Every token covers at least one character, and together they cover the
text. Where no atom, group or quantifier can be read, a token says what is wrong.

## Main definitions

* `Lexeme`: what a token is
* `Lexeme.read`: the lexeme at the front of a text, and how many characters it covers
* `Token`: a lexeme and the characters it covers
* `tokens`: the tokens of a text
-/

namespace Exemplar.Pattern

/-- What a token of a pattern is. -/
inductive Lexeme where
  | bar
  | close
  | caret
  | dollar
  /-- The opening of a group. -/
  | group
  | lookbehind
  | lookahead
  | negativeLookbehind
  | negativeLookahead
  /-- A question mark: an atom in front of it may be missing, a quantifier is made lazy. -/
  | question
  /-- Any other quantifier. -/
  | times (occurs : Extent)
  /-- A character or a class of characters. -/
  | atom (cls : CharClass)
  /-- What would be an atom or the opening of a group, and is malformed. The position counts from
  the start of the token. -/
  | broken (error : Error)
  /-- What would be a quantifier, and is malformed. -/
  | brokenTimes (error : Error)
deriving DecidableEq

/-- A number in decimal digits at `offset`; it has to be below `unbounded`. -/
def readDecimal (offset : Nat) (rest : List Char) : Except Error (Nat × Nat) :=
  match rest.takeWhile Char.isDigit with
  | [] => .error ⟨.decimalMissing, offset⟩
  | digits =>
    if unbounded ≤ decimalValue digits then .error ⟨.decimalTooLarge, offset⟩
    else .ok (decimalValue digits, digits.length)

/-- A quantifier in braces, read from what follows the opening brace. -/
def readBraces (rest : List Char) : Except Error (Extent × Nat) := do
  let (least, taken) ← readDecimal 1 rest
  match rest.drop taken with
  | '}' :: _ => return (.exactly least, taken + 1)
  | ',' :: '}' :: _ => return (.atLeast least, taken + 2)
  | ',' :: more =>
    let (most, takenMost) ← readDecimal (taken + 2) more
    match more.drop takenMost with
    | '}' :: _ =>
      match Extent.ofEnds least most with
      | .ok occurs => return (occurs, taken + 1 + takenMost + 1)
      | .error _ => throw ⟨.quantifierDisordered, 0⟩
    | _ => throw ⟨.quantifierEnd, taken + 2 + takenMost⟩
  | _ => throw ⟨.quantifierSeparator, taken + 1⟩

/-- Whether `c` may begin the name of a group. -/
def isNameStart (c : Char) : Bool := isLetter c || c = '_' || c = '$'

/-- Whether `c` may stand in the name of a group. -/
def isNamePart (c : Char) : Bool := isLetterOrNumber c || c = '_' || c = '$'

/-- The number of characters of the name at the front of a text. -/
def nameLength : List Char → Nat
  | c :: rest => if isNameStart c then 1 + (rest.takeWhile isNamePart).length else 0
  | [] => 0

/-- What an opening parenthesis begins, read from what follows it. -/
def readOpening : List Char → Lexeme × Nat
  | '?' :: ':' :: _ => (.group, 2)
  | '?' :: '=' :: _ => (.lookahead, 2)
  | '?' :: '!' :: _ => (.negativeLookahead, 2)
  | '?' :: '<' :: '=' :: _ => (.lookbehind, 3)
  | '?' :: '<' :: '!' :: _ => (.negativeLookbehind, 3)
  | '?' :: '<' :: rest =>
    let length := nameLength rest
    if length ≠ 0 ∧ (rest.drop length).head? = some '>' then (.group, 2 + length + 1)
    else (.broken ⟨.invalidGroupName, 3⟩, 0)
  | '?' :: _ => (.broken ⟨.invalidGroup, 0⟩, 0)
  | _ => (.group, 0)

/-- The lexeme that begins with the character `c`, read from what follows `c`, and the number of
characters that it takes of what follows. -/
def Lexeme.read (space : CharSet) (c : Char) (rest : List Char) : Lexeme × Nat :=
  match c with
  | '|' => (.bar, 0)
  | ')' => (.close, 0)
  | '^' => (.caret, 0)
  | '$' => (.dollar, 0)
  | '?' => (.question, 0)
  | '*' => (.times .any, 0)
  | '+' => (.times (.atLeast 1), 0)
  | '.' => (.atom .dot, 0)
  | '(' => readOpening rest
  | '{' =>
    match readBraces rest with
    | .ok (occurs, taken) => (.times occurs, taken)
    | .error e => (.brokenTimes e, 0)
  | '[' =>
    match Bracket.read space rest with
    | .ok (cls, taken) => (.atom cls, taken)
    | .error e => (.broken e, 0)
  | '\\' =>
    match Escape.read space rest with
    | .ok (cls, taken) => (.atom cls, taken)
    | .error reason => (.broken ⟨reason, 0⟩, 0)
  | c => (.atom (.literal c), 0)

/-- A lexeme and the characters that it covers. -/
structure Token where
  lexeme : Lexeme
  text : List Char
deriving DecidableEq

/-- The tokens of a text, in which `\s` stands for `space`. -/
def tokens (space : CharSet) : List Char → List Token
  | [] => []
  | c :: rest =>
    let (lexeme, taken) := Lexeme.read space c rest
    ⟨lexeme, c :: rest.take taken⟩ :: tokens space (rest.drop taken)
termination_by text => text.length
decreasing_by simp only [List.length_drop, List.length_cons]; omega

end Exemplar.Pattern
