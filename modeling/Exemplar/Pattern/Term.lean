import Exemplar.Pattern.Error
import Exemplar.Tree.Basic

/-!
# Terms

An alternative of a pattern is a list of terms. A term is an atom, perhaps repeated, with an anchor
or a lookaround before it and after it. The trees of an alternative have to be placed so that what
is pinned to the front comes first and what is pinned to the back comes last.

## Main definitions

* `checkPlacement`: refuses trees that are pinned to a side where they do not stand
* `limitRepeat`: how often an atom may be repeated, given how it is pinned
* `repeated`: an atom with a quantifier
* `Term`: what has been read of a term, with `Term.finish` for its tree
-/

namespace Exemplar.Pattern

/-- The characters of a pattern from one position up to another. -/
def excerpt (pattern : List Char) (start stop : Nat) : String :=
  String.ofList ((pattern.drop start).take (stop - start))

/-- Refuses trees that are held at the front and have others before them, or are held at the back
and have others behind them. Each tree comes with its position; `first` tells whether there is
nothing before the list. -/
def checkPlacement (first : Bool) : List (Nat × Tree) → Except Error Unit
  | [] => .ok ()
  | (position, tree) :: rest =>
    if !first && tree.pins.front.inSome then .error ⟨.startMisplaced, position⟩
    else if !first && tree.pins.front.byLook then .error ⟨.lookbehindMisplaced, position⟩
    else if !rest.isEmpty && tree.pins.back.inSome then .error ⟨.endMisplaced, position⟩
    else if !rest.isEmpty && tree.pins.back.byLook then .error ⟨.lookaheadMisplaced, position⟩
    else checkPlacement false rest

/-- Refuses to repeat what is pinned in some branches only, or what is pinned and has to occur more
than once. -/
def checkRepeat (pins : Pins) (occurs : Extent) (position : Nat) (side : Side) :
    Except Error Unit :=
  if (pins.on side).isPartial then .error ⟨.repeatedPartly side, position⟩
  else if (pins.on side).inSome && 1 < occurs.least then .error ⟨.repeatedPinned side, position⟩
  else .ok ()

/-- How often an atom with these pins may occur where the quantifier says `occurs`. What is pinned
stands at an end of the string, so it occurs at most once. -/
def limitRepeat (pins : Pins) (occurs : Extent) (position : Nat) : Except Error Extent := do
  if occurs.most ≤ 1 then return occurs
  if pins.front.byLook || pins.back.byLook then throw ⟨.repeatedLookaround, position⟩
  checkRepeat pins occurs position .front
  checkRepeat pins occurs position .back
  if pins.front.inSome || pins.back.inSome then
    return if occurs.least = 0 then .optional else .once
  return occurs

/-- An atom occurring so often. An atom that is repeated or pinned already stays a node of its
own. -/
def repeated (atom : Tree) (occurs : Extent) : Tree :=
  (if atom.occurs = .once ∧ atom.pins = .free then atom else .ofParts [atom]).withOccurs occurs

/-- How far a term has been read. -/
inductive Stage where
  /-- The atom comes next, if there is one. -/
  | opened
  /-- An atom at the position, to which a quantifier may be added. -/
  | atom (position : Nat) (tree : Tree)
  /-- An atom at the position with its quantifier, which may be made lazy. -/
  | repeated (position : Nat) (tree : Tree)
  /-- An atom and everything that belongs to it. -/
  | body (tree : Tree)
  /-- An end anchor at the position behind the body. -/
  | anchored (position : Nat) (tree : Tree)
  /-- A lookahead at the position behind the body. -/
  | ahead (position : Nat) (tree look : Tree)

/-- What has been read of a term. -/
structure Term where
  /-- The position of its first character. -/
  start : Nat
  /-- Whether it begins with a start anchor. -/
  caret : Bool := false
  /-- The lookbehind that it begins with, and the position of that. -/
  behind : Option (Nat × Tree) := none
  /-- The position where its atom begins. -/
  bodyAt : Nat
  stage : Stage := .opened

namespace Term

/-- The atom and what belongs to it; the empty string if the term has no atom. -/
def body (t : Term) : Tree :=
  match t.stage with
  | .opened => .empty
  | .atom _ tree | .repeated _ tree | .body tree | .anchored _ tree | .ahead _ tree _ => tree

/-- The lookahead that the term ends with, and the position of that. -/
def ahead? (t : Term) : Option (Nat × Tree) :=
  match t.stage with
  | .ahead position _ look => some (position, look)
  | _ => none

/-- Whether the term ends with an end anchor. -/
def isAnchored (t : Term) : Bool :=
  match t.stage with
  | .anchored _ _ => true
  | _ => false

/-- Refuses to let anything follow an end anchor or a lookahead. -/
def checkOpen (t : Term) : Except Error Unit :=
  match t.stage with
  | .anchored position _ => .error ⟨.endMisplaced, position⟩
  | .ahead position _ _ => .error ⟨.lookaheadMisplaced, position⟩
  | _ => .ok ()

/-- The body between the lookarounds, which are read as parts of the string. `source` is the text
of the whole term. -/
def looked (t : Term) (source : String) : Except Error Tree :=
  if t.behind.isNone && t.ahead?.isNone then .ok t.body
  else do
    let parts := t.behind.toList ++ [(t.bodyAt, t.body)] ++ t.ahead?.toList
    checkPlacement true parts
    let pins : Pins :=
      { front := if t.behind.isSome then .look else .free
        back := if t.ahead?.isSome then .look else .free }
    return ((Tree.ofParts (parts.map Prod.snd)).pinned pins).withSource source

/-- The tree of the term. An anchor does not stand beside a lookaround on its own side. -/
def finish (t : Term) (source : String) : Except Error Tree := do
  let tree ← t.looked source
  if t.caret && tree.pins.front.byLook then throw ⟨.lookbehindMisplaced, t.bodyAt⟩
  let tree := if t.caret then tree.pinned (.only .front .anchor) else tree
  if t.isAnchored && tree.pins.back.byLook then throw ⟨.lookaheadMisplaced, t.bodyAt⟩
  return if t.isAnchored then tree.pinned (.only .back .anchor) else tree

end Term

end Exemplar.Pattern
