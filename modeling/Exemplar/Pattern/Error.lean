import Exemplar.Pin

/-!
# Errors in patterns

Why a text is no pattern. A reason is met at a position, the index of a character in the text.

## Main definitions

* `Pattern.Reason`: what is wrong, with `Reason.message` for its wording
* `Pattern.Error`: a reason and the position where it was met
-/

namespace Exemplar.Pattern

/-- What is wrong with a pattern. -/
inductive Reason where
  | unmatchedClose
  | unterminatedGroup
  | invalidGroup
  | invalidGroupName
  | startMisplaced
  | endMisplaced
  | lookbehindMisplaced
  | lookaheadMisplaced
  | lookaroundInWhole
  | negativeLookbehind
  | negativeLookahead
  | nothingToRepeat
  | repeatedLookaround
  /-- An expression that only some branches pin at the side is repeated. -/
  | repeatedPartly (side : Side)
  /-- An expression pinned at the side has to occur more than once. -/
  | repeatedPinned (side : Side)
  | quantifierSeparator
  | quantifierEnd
  | quantifierDisordered
  | decimalMissing
  | decimalTooLarge
  | backslashAtEnd
  | wordBoundary
  | backreference
  | namedBackreference
  | octalEscape
  | controlEscape
  | hexEscape
  | unicodeEscape
  | loneSurrogate
  | unterminatedClass
  | emptyClass
  | vacuousClass
  | rangeDisordered
  | rangeEndpoint
  | classEscape
deriving DecidableEq, Repr

namespace Reason

/-- The wording of a reason. -/
def message : Reason → String
  | unmatchedClose => "Unmatched ')'"
  | unterminatedGroup => "Unterminated group"
  | invalidGroup => "Invalid group"
  | invalidGroupName => "Invalid capture group name"
  | startMisplaced => "Start anchor is only allowed at the beginning of an alternative"
  | endMisplaced => "End anchor is only allowed at the end of an alternative"
  | lookbehindMisplaced => "Lookbehind is only allowed at the beginning of an alternative"
  | lookaheadMisplaced => "Lookahead is only allowed at the end of an alternative"
  | lookaroundInWhole => "Lookarounds cannot be used with exact matching"
  | negativeLookbehind => "Negative lookbehind is not supported"
  | negativeLookahead => "Negative lookahead is not supported"
  | nothingToRepeat => "Nothing to repeat"
  | repeatedLookaround => "Cannot repeat an expression containing a lookaround"
  | repeatedPartly side =>
    s!"Cannot repeat an expression anchored at the {side.word} in only some branches"
  | repeatedPinned side =>
    s!"An expression anchored at the {side.word} cannot occur more than once"
  | quantifierSeparator => "Malformed quantifier: expected ',' or '\x7d'"
  | quantifierEnd => "Malformed quantifier: expected '\x7d'"
  | quantifierDisordered => "Numbers out of order in quantifier"
  | decimalMissing => "Malformed decimal: expected a digit"
  | decimalTooLarge => "Malformed decimal: number too large"
  | backslashAtEnd => "\\ at end of pattern"
  | wordBoundary => "Word boundary assertions are not supported"
  | backreference => "Backreferences are not supported"
  | namedBackreference => "Named backreferences are not supported"
  | octalEscape => "Octal escapes are not supported"
  | controlEscape => "Invalid control escape: expected a letter"
  | hexEscape => "Malformed hexadecimal escape"
  | unicodeEscape => "Malformed unicode escape"
  | loneSurrogate => "Malformed unicode escape: lone surrogate"
  | unterminatedClass => "Unterminated character class"
  | emptyClass => "Empty character class"
  | vacuousClass => "Character class matches nothing"
  | rangeDisordered => "Range out of order in character class"
  | rangeEndpoint => "Range endpoint must be a single character"
  | classEscape => "Invalid escape in character class"

/-- Whether the text is well formed and asks for something that patterns do not offer. -/
def isUnsupported : Reason → Bool
  | negativeLookbehind | negativeLookahead | wordBoundary | backreference | namedBackreference
  | octalEscape => true
  | _ => false

end Reason

/-- A reason to refuse a text as a pattern, and the index of the character where it was met. -/
structure Error where
  reason : Reason
  position : Nat
deriving DecidableEq, Repr

/-- The wording of an error. -/
def Error.message (e : Error) : String := s!"{e.reason.message} at position {e.position}"

/-- The same error in a text that starts `n` characters further on. -/
def Error.shift (n : Nat) (e : Error) : Error := { e with position := n + e.position }

end Exemplar.Pattern
