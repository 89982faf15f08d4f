import Exemplar.Pattern.Term
import Exemplar.Pattern.Token

/-!
# Reading patterns

A pattern is read token by token. The grammar is

```text
pattern     := alternative ('|' alternative)*
alternative := term*
term        := ['^' | '(?<=' pattern ')'] [atom [quantifier ['?']]] ['$' | '(?=' pattern ')']
atom        := '(' pattern ')' | class | escape | '.' | character
```

What has been read so far is a stack of frames, one for the pattern and one for each group and
lookaround that is still open. A token changes the innermost frame, opens a frame or closes one, so
a pattern is read in a single pass from left to right.

## Main definitions

* `Frame`: what has been read of a pattern, a group or a lookaround
* `Reader`: the open frames and the position in the text
* `Reader.step`: what a token does
* `parse`: the tree of a pattern, or the first thing that is wrong with it
-/

namespace Exemplar.Pattern

/-- What a frame was opened by, with the position of the opening. -/
inductive Opening where
  /-- The whole pattern. -/
  | pattern
  | group (position : Nat)
  | lookbehind (position : Nat)
  | lookahead (position : Nat)
deriving DecidableEq, Repr

/-- The position of the opening. -/
def Opening.position : Opening → Nat
  | pattern => 0
  | group p | lookbehind p | lookahead p => p

/-- What has been read of a pattern, a group or a lookaround. -/
structure Frame where
  opening : Opening
  /-- The position behind the opening. -/
  start : Nat
  /-- The trees of the alternatives before the last bar. -/
  branches : List Tree := []
  /-- The position behind the last bar. -/
  branchStart : Nat
  /-- The finished terms of the present alternative, with their positions. -/
  terms : List (Nat × Tree) := []
  /-- The term under way. -/
  term : Option Term := none

namespace Frame

/-- A frame in which nothing has been read. -/
def opened (opening : Opening) (start : Nat) : Frame := { opening, start, branchStart := start }

/-- The frame with the term under way finished. `position` is where the term ends. -/
def endTerm (pattern : List Char) (position : Nat) (f : Frame) : Except Error Frame := do
  match f.term with
  | none => return f
  | some t =>
    let tree ← t.finish (excerpt pattern t.start position)
    return { f with terms := f.terms ++ [(t.start, tree)], term := none }

/-- The frame ready for an atom or for what begins a term: only a term that still waits for its
atom is left under way. -/
def ready (pattern : List Char) (position : Nat) (f : Frame) : Except Error Frame := do
  match f.term with
  | none => return f
  | some t =>
    t.checkOpen
    match t.stage with
    | .opened => return f
    | _ => f.endTerm pattern position

/-- The tree of the present alternative. -/
def branch (pattern : List Char) (position : Nat) (f : Frame) : Except Error Tree := do
  let f ← f.endTerm pattern position
  checkPlacement true f.terms
  match f.terms with
  | [] => return .empty
  | [(_, tree)] => return tree
  | terms =>
    let source := excerpt pattern f.branchStart position
    return (Tree.ofParts (terms.map Prod.snd)).withSource source

/-- The tree of all alternatives. -/
def tree (pattern : List Char) (position : Nat) (f : Frame) : Except Error Tree := do
  let last ← f.branch pattern position
  match f.branches with
  | [] => return last
  | branches =>
    let source := excerpt pattern f.start position
    return (Tree.ofMembers (branches ++ [last])).withSource source

/-- Whether the present alternative has no term yet, not even one under way. -/
def isFresh (f : Frame) : Bool := f.terms.isEmpty && f.term.isNone

/-- How far the term under way has been read. -/
def stage? (f : Frame) : Option Stage := f.term.map (·.stage)

/-- The frame with the term under way read that far. -/
def withStage (f : Frame) (stage : Stage) : Frame :=
  { f with term := f.term.map fun t => { t with stage } }

/-- The term under way, or one that begins at the position. -/
def termAt (position : Nat) (f : Frame) : Term :=
  f.term.getD { start := position, bodyAt := position }

/-- The frame with this atom, which is the tree between `position` and `stop`. -/
def addAtom (pattern : List Char) (position stop : Nat) (tree : Tree) (f : Frame) : Frame :=
  let tree := tree.withSource (excerpt pattern position stop)
  { f with term := some { f.termAt position with stage := .atom position tree } }

/-- The frame ready for what ends a term: the term under way is complete but for that. -/
def closing (position : Nat) (f : Frame) : Except Error Term := do
  let t := f.termAt position
  t.checkOpen
  return { t with stage := .body t.body }

/-- The frame after the tree of a frame inside of it has been read up to `stop`. -/
def receive (pattern : List Char) (stop : Nat) (opening : Opening) (tree : Tree) (f : Frame) :
    Frame :=
  match opening with
  | .pattern => f
  | .group position => f.addAtom pattern position stop tree
  | .lookbehind position =>
    { f with term := some { start := position, behind := some (position, tree), bodyAt := stop } }
  | .lookahead position =>
    let t := f.termAt position
    { f with term := some { t with stage := .ahead position t.body tree } }

end Frame

/-- A quantifier that was reduced to at most one occurrence, because its atom is pinned. -/
structure Clamp where
  /-- How often the quantifier lets the atom occur. -/
  occurs : Extent
  /-- The position of the atom. -/
  position : Nat
deriving DecidableEq

/-- What has been read of a text. -/
structure Reader where
  /-- The number of characters read. -/
  position : Nat := 0
  /-- The innermost open frame. -/
  frame : Frame := .opened .pattern 0
  /-- The frames around it, from the inside to the outside. -/
  outer : List Frame := []
  /-- The position of the first lookaround. -/
  lookaround : Option Nat := none
  /-- The quantifiers reduced so far. -/
  clamps : List Clamp := []

namespace Reader

/-- Opens a frame inside of `parent`. -/
def push (r : Reader) (parent : Frame) (opening : Opening) (stop : Nat) : Reader :=
  { r with frame := .opened opening stop, outer := parent :: r.outer }

/-- Opens a lookaround inside of `parent`. -/
def pushLook (r : Reader) (parent : Frame) (opening : Opening) (stop : Nat) : Reader :=
  { r.push parent opening stop with lookaround := some (r.lookaround.getD r.position) }

/-- Adds a quantifier to the atom of the term under way. Anywhere else there is nothing to
repeat. -/
def quantify (pattern : List Char) (stop : Nat) (r : Reader) (occurs : Except Error Extent) :
    Except Error Reader := do
  match r.frame.stage? with
  | some (.atom position atom) =>
    let occurs ← occurs
    let limited ← limitRepeat atom.pins occurs position
    let tree := (repeated atom limited).withSource (excerpt pattern position stop)
    return { r with
      frame := r.frame.withStage (.repeated position tree)
      clamps := if limited = occurs then r.clamps else r.clamps ++ [⟨occurs, position⟩] }
  | _ =>
    discard <| r.frame.ready pattern r.position
    throw ⟨.nothingToRepeat, r.position⟩

/-- Reads a question mark: it makes a quantifier lazy, which changes nothing but the text of the
repeated atom, or it is a quantifier itself. -/
def question (pattern : List Char) (stop : Nat) (r : Reader) : Except Error Reader :=
  match r.frame.stage? with
  | some (.repeated position tree) =>
    let tree := tree.withSource (excerpt pattern position stop)
    .ok { r with frame := r.frame.withStage (.body tree) }
  | _ => r.quantify pattern stop (.ok .optional)

/-- Reads a closing parenthesis. -/
def close (pattern : List Char) (stop : Nat) (r : Reader) : Except Error Reader := do
  let tree ← r.frame.tree pattern r.position
  match r.outer with
  | [] => throw ⟨.unmatchedClose, r.position⟩
  | parent :: outer =>
    return { r with frame := parent.receive pattern stop r.frame.opening tree, outer }

/-- Reads a lexeme that ends at `stop`. -/
def take (pattern : List Char) (stop : Nat) (r : Reader) : Lexeme → Except Error Reader
  | .bar => do
    let branch ← r.frame.branch pattern r.position
    return { r with
      frame := { r.frame with
        branches := r.frame.branches ++ [branch], branchStart := stop, terms := [], term := none } }
  | .close => r.close pattern stop
  | .caret => do
    let f ← r.frame.ready pattern r.position
    if !f.isFresh then throw ⟨.startMisplaced, r.position⟩
    let t : Term := { start := r.position, caret := true, bodyAt := stop }
    return { r with frame := { f with term := some t } }
  | .dollar => do
    let t ← r.frame.closing r.position
    let t := { t with stage := .anchored r.position t.body }
    return { r with frame := { r.frame with term := some t } }
  | .group => do
    let f ← r.frame.ready pattern r.position
    return r.push { f with term := some (f.termAt r.position) } (.group r.position) stop
  | .lookbehind => do
    let f ← r.frame.ready pattern r.position
    if !f.isFresh then throw ⟨.lookbehindMisplaced, r.position⟩
    return r.pushLook { f with term := some (f.termAt r.position) } (.lookbehind r.position) stop
  | .lookahead => do
    let t ← r.frame.closing r.position
    return r.pushLook { r.frame with term := some t } (.lookahead r.position) stop
  | .negativeLookbehind => do
    discard <| r.frame.ready pattern r.position
    throw ⟨.negativeLookbehind, r.position⟩
  | .negativeLookahead => do
    discard <| r.frame.closing r.position
    throw ⟨.negativeLookahead, r.position⟩
  | .question => r.question pattern stop
  | .times occurs => r.quantify pattern stop (.ok occurs)
  | .brokenTimes e => r.quantify pattern stop (.error (e.shift r.position))
  | .atom cls => do
    let f ← r.frame.ready pattern r.position
    return { r with frame := f.addAtom pattern r.position stop (.ofClass cls) }
  | .broken e => do
    discard <| r.frame.ready pattern r.position
    throw (e.shift r.position)

/-- Reads a token. -/
def step (pattern : List Char) (r : Reader) (t : Token) : Except Error Reader :=
  let stop := r.position + t.text.length
  (r.take pattern stop t.lexeme).map fun r => { r with position := stop }

/-- Reads tokens up to the first one that cannot be read, and tells what is wrong with that. -/
def run (pattern : List Char) (r : Reader) : List Token → Reader × Option Error
  | [] => (r, none)
  | t :: ts =>
    match r.step pattern t with
    | .ok r => r.run pattern ts
    | .error e => (r, some e)

/-- The tree of the whole text, which ends here. -/
def finish (pattern : List Char) (whole : Bool) (r : Reader) : Except Error Tree := do
  let tree ← r.frame.tree pattern r.position
  if !r.outer.isEmpty then throw ⟨.unterminatedGroup, r.frame.opening.position⟩
  match whole, r.lookaround with
  | true, some position => throw ⟨.lookaroundInWhole, position⟩
  | _, _ => return tree

end Reader

/-- What reading a text as a pattern leads to. -/
structure Reading where
  /-- The quantifiers that were reduced, in the order in which they were read. -/
  clamps : List Clamp
  /-- The tree of the pattern, or what is wrong with it. -/
  result : Except Error Tree

/-- Reads a text as a pattern, in which `\s` stands for the spaces of the alphabet. Where the whole
string has to match, a pattern may not look around itself. -/
def read (options : Options) (pattern : List Char) : Reading :=
  match Reader.run pattern {} (tokens options.alphabet.space pattern) with
  | (r, some e) => ⟨r.clamps, .error e⟩
  | (r, none) => ⟨r.clamps, r.finish pattern options.whole⟩

/-- The tree of a pattern, or the first thing that is wrong with it. -/
def parse (options : Options) (pattern : List Char) : Except Error Tree :=
  (read options pattern).result

end Exemplar.Pattern
