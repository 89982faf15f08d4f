import Exemplar.Pattern.Bracket
import Exemplar.Text.Decimal
import Exemplar.Tree.Basic

/-!
# Trees as patterns

A tree is written as a pattern: its leaves as characters or classes, its quantifiers and anchors
where they were set, and a group wherever precedence asks for one.

## Main definitions

* `Tree.chars`: the pattern of a tree, character by character
* `Tree.text`: the same as a string
* `Tree.describe`: the text that a tree was read from, or else its pattern
-/

namespace Exemplar

/-- The quantifier for a number of occurrences other than one. -/
def Extent.quantifier (e : Extent) : List Char :=
  if e.isOpen then
    if e.least = 0 then ['*']
    else if e.least = 1 then ['+']
    else '{' :: decimal e.least ++ [',', '}']
  else if e.least = 0 ∧ e.most = 1 then ['?']
  else if e.least = e.most then '{' :: decimal e.least ++ ['}']
  else '{' :: decimal e.least ++ ',' :: decimal e.most ++ ['}']

/-- The pattern of a single character of the class. -/
def CharClass.chars : CharClass → List Char
  | anyOf set =>
    match set.toList with
    | [c] => Pattern.escape Pattern.syntaxChars c
    | _ => '[' :: Pattern.Bracket.body set ++ [']']
  | noneOf set =>
    if set.isEmpty then ['[', '\\', 's', '\\', 'S', ']']
    else '[' :: '^' :: Pattern.Bracket.body set ++ [']']
  | dot => ['.']

namespace Tree

/-- Whether the tree is a single character of a class and nothing else was set on it. -/
def isPlainLeaf (t : Tree) : Bool :=
  match t with
  | leaf _ m => m.occurs = .once && t.ownPins = .free
  | _ => false

/-- Whether the node has to be written as a group, given whether it stands in a sequence. -/
def isGrouped (inSequence : Bool) (t : Tree) : Bool :=
  match t with
  | leaf _ _ => false
  | sequence [part] m => m.occurs ≠ .once && !part.isPlainLeaf
  | sequence _ m => m.occurs ≠ .once
  | choice _ m => inSequence || m.occurs ≠ .once || t.ownPins.isPinned

/-- The pattern of a node around the pattern of a single occurrence without group. -/
def enclose (inSequence : Bool) (t : Tree) (inner : List Char) : List Char :=
  (if t.ownPins.front.inSome then ['^'] else [])
    ++ (if t.isGrouped inSequence then '(' :: '?' :: ':' :: inner ++ [')'] else inner)
    ++ (if t.occurs = .once then [] else t.occurs.quantifier)
    ++ (if t.ownPins.back.inSome then ['$'] else [])

mutual

/-- The pattern of the tree; a choice in a sequence is grouped. -/
def chars (inSequence : Bool) : Tree → List Char
  | leaf cls m => enclose inSequence (leaf cls m) cls.chars
  | sequence parts m => enclose inSequence (sequence parts m) (charsOfParts parts)
  | choice members m => enclose inSequence (choice members m) (charsOfMembers members)

/-- The patterns of the parts, one after the other. -/
def charsOfParts : List Tree → List Char
  | [] => []
  | t :: ts => chars true t ++ charsOfParts ts

/-- The patterns of the members, with bars between them. -/
def charsOfMembers : List Tree → List Char
  | [] => []
  | [t] => chars false t
  | t :: u :: ts => chars false t ++ '|' :: charsOfMembers (u :: ts)

end

/-- The pattern of the tree. -/
def text (t : Tree) : String := String.ofList (t.chars false)

/-- The text that the tree was read from, or else its pattern. -/
def describe (t : Tree) : String := t.source.getD t.text

end Tree

end Exemplar
