import Exemplar.Alphabet

/-!
# Character classes

A class stands for one character. It is seen through the characters that it accepts, which are all
characters that match it, and through those it draws from, which are the ones that strings are made
of under a given alphabet.
-/

namespace Exemplar

/-- What a single character of a pattern may be. -/
inductive CharClass where
  /-- A member of the set. -/
  | anyOf (set : CharSet)
  /-- Any character that is not in the set. -/
  | noneOf (set : CharSet)
  /-- Any character that does not end a line. -/
  | dot
deriving DecidableEq

namespace CharClass

/-- Whether the class matches the character. -/
def accepts : CharClass → Char → Bool
  | anyOf set, c => set.contains c
  | noneOf set, c => !set.contains c
  | dot, c => !CharSet.lineTerminators.contains c

/-- The characters that the class is drawn from. -/
def resolve (alphabet : Alphabet) : CharClass → CharSet
  | anyOf set => set
  | noneOf set => alphabet.printable.diff set
  | dot => alphabet.printable.diff CharSet.lineTerminators

/-- The class of a single character. -/
def literal (c : Char) : CharClass := anyOf (.singleton c)

end CharClass

end Exemplar
