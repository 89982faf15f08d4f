import Exemplar.Tree.Leading

/-!
# Complements

From a tree that describes strings a tree is derived that describes other strings, in two ways that
are combined where both apply.

* **A wrong beginning**: every string that is described and not empty begins with a character of a
  leading class. A string that begins with another character, and is longer than the longest match
  and made of such characters throughout, is not described.
* **Too short**: a string that is shorter than the shortest match is not described.

```text
^(cat|dog)$     becomes     ^(?:[^cd]{4,}|[cd]{0,2})$
```

Nothing is derived from a pattern that matches the empty string without being pinned, since then
every string matches.

## Main definitions

* `Tree.mismatches`: the characters that cannot begin a match
* `Tree.wrongBeginning?`, `Tree.tooShort`: the two derivations
* `Tree.complement?`: a tree of strings that are not described, if one can be derived
-/

namespace Exemplar

/-- The greatest number of characters of a class in a complement. -/
def sampleLimit : Nat := 32

/-- The set whose members a class stands for, if it is defined that way. -/
def CharClass.included? : CharClass → Option CharSet
  | anyOf set => some set
  | _ => none

/-- The set that a class stands outside of, if it is defined that way. -/
def CharClass.excluded? : CharClass → Option CharSet
  | anyOf _ => none
  | noneOf set => some set
  | dot => some CharSet.lineTerminators

namespace Tree

/-- The leading leaves that have to occur. -/
def required (t : Tree) : List Leaf := t.leading.filter fun l => 0 < l.occurs.least

/-- The leading leaves that may be missing. -/
def dispensable (t : Tree) : List Leaf := t.leading.filter fun l => l.occurs.least = 0

/-- The characters of the alphabet that no leading class accepts. -/
def mismatches (alphabet : Alphabet) (t : Tree) : CharSet :=
  let allowed := CharSet.unionAll (t.required.filterMap (·.cls.included?))
  let candidates :=
    match t.required.filterMap (·.cls.excluded?) with
    | [] => alphabet.printable
    | set :: sets => alphabet.printable.inter (sets.foldl .inter set)
  (candidates.diff allowed).filter fun c => !t.dispensable.any (·.cls.accepts c)

/-- Strings of characters that cannot begin a match, longer than any match if there is a longest
one. -/
def wrongBeginning? (alphabet : Alphabet) (t : Tree) : Option Tree :=
  let mismatches := t.mismatches alphabet
  if t.required.isEmpty || mismatches.isEmpty then none
  else
    let least := if t.length.isOpen then 1 else cappedAdd t.length.most 1
    some ((ofClass (.anyOf (mismatches.sample sampleLimit))).withOccurs (.atLeast least))

/-- Strings of characters that may begin a match, shorter than any match; the empty string if
there are no such characters. -/
def tooShort (alphabet : Alphabet) (t : Tree) : Tree :=
  let sampled := t.required.map fun l => (l.cls.resolve alphabet).sample sampleLimit
  let chars := (CharSet.unionAll sampled).sample sampleLimit
  let longest := t.length.least - 1
  if chars.isEmpty || longest = 0 then empty
  else (ofClass (.anyOf chars)).withOccurs (.atMost longest)

/-- The derivations that apply. -/
def derivations (alphabet : Alphabet) (t : Tree) : List Tree :=
  (t.wrongBeginning? alphabet).toList
    ++ if 0 < t.length.least then [t.tooShort alphabet] else []

/-- A tree of strings that `t` does not describe, if one can be derived; `anchored` tells whether
the pattern of `t` was pinned at both sides in every branch. -/
def complement? (alphabet : Alphabet) (anchored : Bool) (t : Tree) : Option Tree :=
  if t.isNullable && !anchored then none
  else if t.isNullable && t.leading.isEmpty then
    some (((ofClass .dot).withOccurs (.atLeast 1)).pinned .both)
  else
    match t.derivations alphabet with
    | [] => none
    | [tree] => some (tree.pinned .both)
    | trees => some ((ofMembers trees).pinned .both)

end Tree

end Exemplar
