import Exemplar.CharClass
import Exemplar.Extent
import Exemplar.Pin

/-!
# Trees

A tree describes a set of strings: its leaves are character classes, and it is put together by
sequence and choice. Each node may occur a number of times. It also records how it is pinned to the
ends of the string, which says where text may be added around it, and the text it was read from.

## Main definitions

* `Tree`: the type
* `Tree.ofClass`, `Tree.ofParts`, `Tree.ofMembers`: trees that occur once, pinned as their children
  pin them
* `Tree.length`: the lengths of the strings that a tree describes
* `Tree.ownPins`: the pins that a node adds to those of its children
* `Tree.size`: the number of nodes

## Implementation notes

The pins of a node are stored. They are those that its children give it, loosened when the node may
be missing, together with those that were set on the node itself.
-/

namespace Exemplar

/-- What a node of a tree carries besides its children. -/
structure Mark where
  /-- How often the node occurs. -/
  occurs : Extent := .once
  /-- How the node is held at its sides. -/
  pins : Pins := .free
  /-- The text that the node was read from. -/
  source : Option String := none
deriving DecidableEq

/-- A description of a set of strings. -/
inductive Tree where
  /-- One character of a class. -/
  | leaf (cls : CharClass) (mark : Mark)
  /-- All parts, one after the other. -/
  | sequence (parts : List Tree) (mark : Mark)
  /-- One of the members. -/
  | choice (members : List Tree) (mark : Mark)

namespace Tree

/-- What the node carries besides its children. -/
def mark : Tree → Mark
  | leaf _ m | sequence _ m | choice _ m => m

/-- The same node carrying something else. -/
def withMark (t : Tree) (m : Mark) : Tree :=
  match t with
  | leaf cls _ => leaf cls m
  | sequence parts _ => sequence parts m
  | choice members _ => choice members m

/-- How often the node occurs. -/
def occurs (t : Tree) : Extent := t.mark.occurs

/-- How the node is held at its sides. -/
def pins (t : Tree) : Pins := t.mark.pins

/-- The text that the node was read from. -/
def source (t : Tree) : Option String := t.mark.source

instance : Inhabited Tree := ⟨sequence [] {}⟩

/-! ### Pins -/

/-- The pins that parts give their sequence: the first one at the front and the last one at the
back. -/
def pinsOfParts (parts : List Tree) : Pins where
  front := parts.head?.elim .free (·.pins.front)
  back := parts.getLast?.elim .free (·.pins.back)

/-- The pins that members give their choice. -/
def pinsOfMembers (members : List Tree) : Pins where
  front := .ofBranches (members.map (·.pins.front))
  back := .ofBranches (members.map (·.pins.back))

/-- The pins that a node has from its children. -/
def derivedPins : Tree → Pins
  | leaf _ _ => .free
  | sequence parts _ => pinsOfParts parts
  | choice members _ => pinsOfMembers members

/-- The pins that were set on the node itself. -/
def ownPins (t : Tree) : Pins := t.pins.diff t.derivedPins

/-! ### Building -/

/-- One character of a class. -/
def ofClass (cls : CharClass) : Tree := leaf cls {}

/-- These parts, one after the other. -/
def ofParts (parts : List Tree) : Tree := sequence parts { pins := pinsOfParts parts }

/-- One of these members. -/
def ofMembers (members : List Tree) : Tree := choice members { pins := pinsOfMembers members }

/-- The empty string. -/
def empty : Tree := ofParts []

/-- The tree occurring so often. What may be missing is not pinned in every branch. -/
def withOccurs (t : Tree) (occurs : Extent) : Tree :=
  t.withMark
    { t.mark with occurs, pins := if occurs.least = 0 then t.pins.loosen else t.pins }

/-- The tree with these pins added. -/
def pinned (t : Tree) (pins : Pins) : Tree := t.withMark { t.mark with pins := t.pins.union pins }

/-- The tree read from this text. -/
def withSource (t : Tree) (source : String) : Tree :=
  t.withMark { t.mark with source := some source }

/-- Any text without line terminators: what may stand around an unpinned pattern. -/
def padding : Tree := (ofClass .dot).withOccurs .any

/-! ### Lengths -/

mutual

/-- The lengths of the strings that the tree describes, from the shortest to the longest. -/
def length : Tree → Extent
  | leaf _ m => m.occurs.mul .once
  | sequence parts m => m.occurs.mul (.sumAll (lengths parts))
  | choice members m => m.occurs.mul (.hullAll (lengths members))

/-- The lengths of each tree. -/
def lengths : List Tree → List Extent
  | [] => []
  | t :: ts => t.length :: lengths ts

end

theorem lengths_eq_map (ts : List Tree) : lengths ts = ts.map length := by
  induction ts with
  | nil => rfl
  | cons t ts ih => rw [lengths, ih, List.map_cons]

/-- The lengths of a single occurrence of the node. -/
def lengthOnce : Tree → Extent
  | leaf _ _ => .once
  | sequence parts _ => .sumAll (lengths parts)
  | choice members _ => .hullAll (lengths members)

theorem length_eq_mul (t : Tree) : t.length = t.occurs.mul t.lengthOnce := by
  cases t <;> rfl

/-! ### Size -/

mutual

/-- The number of nodes. -/
def size : Tree → Nat
  | leaf _ _ => 1
  | sequence parts _ => 1 + sizes parts
  | choice members _ => 1 + sizes members

/-- The number of nodes of all the trees together. -/
def sizes : List Tree → Nat
  | [] => 0
  | t :: ts => t.size + sizes ts

end

end Tree

end Exemplar
