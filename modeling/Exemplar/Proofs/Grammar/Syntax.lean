import Exemplar.Pattern.Token
import Exemplar.Proofs.Matching.Matcher

/-!
# The grammar of patterns

A pattern is written after a grammar. The syntax trees of the grammar are given here with the texts
that they are written as, and with what they match: a syntax tree matches from one position of a
string up to another, by recursion on the tree. None of this refers to how patterns are read.

## Main definitions

* `Spells`: what an escape is written as, and the character that it stands for
* `Symbol`: what stands for a single character, with `Symbol.text` and `Symbol.chars`
* `Quantifier`: how often an atom is to match, with `Quantifier.text` and `Quantifier.counts`
* `Alternation`: the syntax trees, with `Alternation.text` and `Alternation.matcher`
-/

namespace Exemplar.Grammar

open Pattern

/-! ## Single characters -/

/-- The characters that do not stand for themselves. -/
def reserved : List Char := ['|', ')', '^', '$', '?', '*', '+', '.', '(', '{', '[', '\\']

/-- The letters that have a meaning of their own behind a backslash. -/
def escapeLetters : List Char :=
  ['t', 'n', 'r', 'f', 'v', 'c', 'x', 'u', 'd', 'D', 'w', 'W', 's', 'S', 'b', 'B']

/-- What may follow a backslash to stand for a character. -/
inductive Spells : List Char → Char → Prop where
  | tab : Spells ['t'] '\t'
  | lineFeed : Spells ['n'] '\n'
  | carriageReturn : Spells ['r'] '\r'
  | formFeed : Spells ['f'] '\x0C'
  | verticalTab : Spells ['v'] '\x0B'
  | null : Spells ['0'] '\x00'
  | control {letter : Char} : isPlainLetter letter = true →
    Spells ['c', letter] (Char.ofNat (letter.toNat % 32))
  | hex {digits : List Char} {c : Char} : digits.length = 2 → hexValue? digits = some c.toNat →
    Spells ('x' :: digits) c
  | unicode {digits : List Char} {c : Char} : digits.length = 4 →
    hexValue? digits = some c.toNat → Spells ('u' :: digits) c
  | self {c : Char} : c ∉ escapeLetters → c.isDigit = false → Spells [c] c

/-- A set of characters with a name. -/
inductive Named where
  | digit
  | word
  | space
deriving DecidableEq

/-- The letter of the set behind a backslash; a capital letter names the characters outside of
it. -/
def Named.letter : Named → Bool → Char
  | digit, false => 'd'
  | digit, true => 'D'
  | word, false => 'w'
  | word, true => 'W'
  | space, false => 's'
  | space, true => 'S'

/-- The characters of the set, in which `space` counts as white space. -/
def Named.members (space : CharSet) : Named → Set Char
  | digit => {c | '0' ≤ c ∧ c ≤ '9'}
  | word => {c | ('a' ≤ c ∧ c ≤ 'z') ∨ ('A' ≤ c ∧ c ≤ 'Z') ∨ ('0' ≤ c ∧ c ≤ '9') ∨ c = '_'}
  | .space => {c | c ∈ space}

/-- The characters of the set, or those outside of it. -/
def Named.chars (space : CharSet) (set : Named) (negated : Bool) : Set Char :=
  {c | c ∈ set.members space ↔ negated = false}

/-! ## Brackets -/

/-- A character as it is written between brackets. -/
inductive BracketChar where
  | plain (c : Char) (h : c ≠ ']' ∧ c ≠ '\\')
  | escaped (letters : List Char) (c : Char) (h : Spells letters c)
  | backspace

/-- The text of a character between brackets. -/
def BracketChar.text : BracketChar → List Char
  | plain c _ => [c]
  | escaped letters _ _ => '\\' :: letters
  | backspace => ['\\', 'b']

/-- The character that is meant. -/
def BracketChar.char : BracketChar → Char
  | plain c _ => c
  | escaped _ c _ => c
  | backspace => '\x08'

/-- An item between brackets. -/
inductive Item where
  | single (x : BracketChar)
  | range (lo hi : BracketChar)
  | named (set : Named) (negated : Bool)

namespace Item

/-- The text of an item. -/
def text : Item → List Char
  | single x => x.text
  | range lo hi => lo.text ++ '-' :: hi.text
  | named set negated => ['\\', set.letter negated]

/-- The characters that an item stands for. -/
def chars (space : CharSet) : Item → Set Char
  | single x => {x.char}
  | range lo hi => {c | lo.char ≤ c ∧ c ≤ hi.char}
  | named set negated => set.chars space negated

/-- A hyphen. -/
def hyphen : Item := single (.plain '-' (by decide))

/-- Whether the item is a range. -/
def IsRange : Item → Prop
  | range _ _ => True
  | _ => False

/-- The items are told apart in their text: a hyphen behind a single character or a named set would
make a range of it, unless it comes last. -/
def Apart : List Item → Prop
  | [] => True
  | x :: rest =>
    (x.IsRange ∨ rest = [hyphen] ∨ (rest.flatMap text).head? ≠ some '-') ∧ Apart rest

end Item

/-- A class in brackets. -/
structure Bracketed where
  negated : Bool
  items : List Item
  apart : Item.Apart items
  /-- A class that is not negated does not begin with the sign of negation. -/
  not_caret : negated = false → (items.flatMap Item.text).head? ≠ some '^'

/-- The text of a class behind its opening bracket. -/
def Bracketed.text (b : Bracketed) : List Char :=
  (if b.negated then ['^'] else []) ++ b.items.flatMap Item.text ++ [']']

/-- The characters that a class stands for: those of some item, or with a negation those of
none. -/
def Bracketed.chars (space : CharSet) (b : Bracketed) : Set Char :=
  {c | (∃ x ∈ b.items, c ∈ x.chars space) ↔ b.negated = false}

/-- What stands for a single character. -/
inductive Symbol where
  | plain (c : Char) (h : c ∉ reserved)
  | dot
  | escaped (letters : List Char) (c : Char) (h : Spells letters c)
  | named (set : Named) (negated : Bool)
  | bracket (b : Bracketed)

/-- The text of a symbol. -/
def Symbol.text : Symbol → List Char
  | plain c _ => [c]
  | dot => ['.']
  | escaped letters _ _ => '\\' :: letters
  | named set negated => ['\\', set.letter negated]
  | bracket b => '[' :: b.text

/-- The characters that a symbol stands for. -/
def Symbol.chars (space : CharSet) : Symbol → Set Char
  | plain c _ => {c}
  | dot => {c | c ≠ '\n' ∧ c ≠ '\r' ∧ c ≠ '\u2028' ∧ c ≠ '\u2029'}
  | escaped _ c _ => {c}
  | named set negated => set.chars space negated
  | bracket b => b.chars space

/-! ## Quantifiers -/

/-- A number in decimal digits. -/
structure Numeral where
  digits : List Char
  nonempty : digits ≠ []
  isDigit : ∀ c ∈ digits, c.isDigit = true

/-- The number that is meant. -/
def Numeral.value (n : Numeral) : Nat := decimalValue n.digits

/-- How often an atom is to match. -/
inductive Quantifier where
  | star
  | plus
  | optional
  | exactly (n : Numeral)
  | atLeast (n : Numeral)
  | between (least most : Numeral)

/-- The text of a quantifier. -/
def Quantifier.text : Quantifier → List Char
  | star => ['*']
  | plus => ['+']
  | optional => ['?']
  | exactly n => '{' :: n.digits ++ ['}']
  | atLeast n => '{' :: n.digits ++ [',', '}']
  | between least most => '{' :: least.digits ++ ',' :: most.digits ++ ['}']

/-- The numbers of matches that the quantifier allows. -/
def Quantifier.counts : Quantifier → Set Nat
  | star => Set.univ
  | plus => {n | 1 ≤ n}
  | optional => {n | n ≤ 1}
  | exactly k => {n | n = k.value}
  | atLeast k => {n | k.value ≤ n}
  | between least most => {n | least.value ≤ n ∧ n ≤ most.value}

/-! ## Syntax trees -/

/-- The opening of a group. -/
inductive GroupOpening where
  | capturing
  | nonCapturing
  | named (first : Char) (more : List Char) (hfirst : isNameStart first = true)
    (hmore : ∀ c ∈ more, isNamePart c = true)

/-- The text of an opening behind its parenthesis. -/
def GroupOpening.text : GroupOpening → List Char
  | capturing => []
  | nonCapturing => ['?', ':']
  | named first more _ _ => '?' :: '<' :: first :: more ++ ['>']

mutual

/-- One branch, or several with bars between them. -/
inductive Alternation where
  | one (branch : Branch)
  | bar (branch : Branch) (more : Alternation)

/-- Terms, one after the other. -/
inductive Branch where
  | nil
  | cons (term : Term) (rest : Branch)

/-- A body with something to hold it at the front and at the back. -/
inductive Term where
  | mk (front : Front) (body : Body) (back : Back)

/-- What holds a body at the front. -/
inductive Front where
  | none
  | caret
  | lookbehind (inner : Alternation)

/-- What holds a body at the back. -/
inductive Back where
  | none
  | dollar
  | lookahead (inner : Alternation)

/-- An atom, perhaps with a quantifier, which may be lazy; or nothing. -/
inductive Body where
  | none
  | once (atom : Atom)
  | repeated (atom : Atom) (quantifier : Quantifier) (isLazy : Bool)

/-- A symbol or a group. -/
inductive Atom where
  | symbol (x : Symbol)
  | group (opening : GroupOpening) (inner : Alternation)

end

/-! ### Texts -/

mutual

/-- The text of an alternation. -/
def Alternation.text : Alternation → List Char
  | .one branch => branch.text
  | .bar branch more => branch.text ++ '|' :: more.text

/-- The text of a branch. -/
def Branch.text : Branch → List Char
  | .nil => []
  | .cons term rest => term.text ++ rest.text

/-- The text of a term. -/
def Term.text : Term → List Char
  | .mk front body back => front.text ++ (body.text ++ back.text)

/-- The text of what holds a body at the front. -/
def Front.text : Front → List Char
  | .none => []
  | .caret => ['^']
  | .lookbehind inner => '(' :: '?' :: '<' :: '=' :: (inner.text ++ [')'])

/-- The text of what holds a body at the back. -/
def Back.text : Back → List Char
  | .none => []
  | .dollar => ['$']
  | .lookahead inner => '(' :: '?' :: '=' :: (inner.text ++ [')'])

/-- The text of a body. -/
def Body.text : Body → List Char
  | .none => []
  | .once atom => atom.text
  | .repeated atom quantifier isLazy =>
    atom.text ++ (quantifier.text ++ if isLazy then ['?'] else [])

/-- The text of an atom. -/
def Atom.text : Atom → List Char
  | .symbol x => x.text
  | .group opening inner => '(' :: opening.text ++ (inner.text ++ [')'])

end

/-! ### Matching -/

mutual

/-- What each branch of an alternation matches. -/
def Alternation.matchers (space : CharSet) : Alternation → List Matcher
  | .one branch => [branch.matcher space]
  | .bar branch more => branch.matcher space :: more.matchers space

/-- What a branch matches: its terms, one after the other. -/
def Branch.matcher (space : CharSet) : Branch → Matcher
  | .nil => 1
  | .cons term rest => term.matcher space * rest.matcher space

/-- What a term matches. -/
def Term.matcher (space : CharSet) : Term → Matcher
  | .mk front body back => front.matcher space * (body.matcher space * back.matcher space)

/-- What holds a body at the front matches the empty string, at the beginning or behind
something. -/
def Front.matcher (space : CharSet) : Front → Matcher
  | .none => 1
  | .caret => .atStart
  | .lookbehind inner => .behind (.anyOf (inner.matchers space))

/-- What holds a body at the back matches the empty string, at the end or in front of something. -/
def Back.matcher (space : CharSet) : Back → Matcher
  | .none => 1
  | .dollar => .atEnd
  | .lookahead inner => .ahead (.anyOf (inner.matchers space))

/-- What a body matches: the atom, as often as the quantifier says. -/
def Body.matcher (space : CharSet) : Body → Matcher
  | .none => 1
  | .once atom => atom.matcher space
  | .repeated atom quantifier _ => .times quantifier.counts (atom.matcher space)

/-- What an atom matches. -/
def Atom.matcher (space : CharSet) : Atom → Matcher
  | .symbol x => .char (x.chars space)
  | .group _ inner => .anyOf (inner.matchers space)

end

/-- What an alternation matches: what one of its branches does. -/
def Alternation.matcher (space : CharSet) (a : Alternation) : Matcher := .anyOf (a.matchers space)

end Exemplar.Grammar
