import Exemplar.Tree.Text

/-!
# Padding

A pattern that is not pinned to an end of the string leaves open what stands there, so `cat` means
`.*cat.*`. Padding a tree at a side makes this explicit: text without line terminators is added
wherever the side is not pinned, and afterwards every branch is pinned there.

```text
cat         becomes   ^.*cat.*$
^a|b        becomes   ^a.*$|^.*b.*$      (each member by itself)
(^a)?b      becomes   (?:^a|^.*)b.*$     (with the part, or without it)
```

## Main definitions

* `Tree.pad`: a tree with text added at a side
* `Tree.padBoth`: a tree with text added at both sides
* `Tree.partlyPinned`: the nodes that are taken apart, because only some of their branches are
  pinned
-/

namespace Exemplar.Tree

/-- Why a tree cannot be padded. -/
inductive PaddingError where
  /-- A node without branches is pinned in some of its branches. -/
  | partialLeaf (source : String)
  /-- A node that is pinned in some of its branches does not occur just once or at most once. -/
  | partialRepeat (source : String)
deriving DecidableEq, Repr

/-- The wording of a padding error. -/
def PaddingError.message : PaddingError → String
  | .partialLeaf source => s!"internal error: leaf {source} is partially anchored"
  | .partialRepeat source =>
    s!"internal error: partially anchored {source} repeats more than once"

/-- The tree with text added at the side, pinned there. -/
def wrap (side : Side) (t : Tree) : Tree :=
  let parts := match side with
    | .front => [padding, t]
    | .back => [t, padding]
  (ofParts parts).pinned (.only side .anchor)

/-- A single occurrence of the node, pinned as it is itself. -/
def single (t : Tree) : Tree :=
  match t with
  | leaf cls _ => (leaf cls { pins := .free }).pinned t.ownPins
  | sequence parts _ => (ofParts parts).pinned t.ownPins
  | choice members _ => (ofMembers members).pinned t.ownPins

/-- The node around padded children: it occurs once and keeps the pins set on it. -/
def rebuilt (t : Tree) (around : Tree) : Tree :=
  let tree := around.pinned t.ownPins
  tree.withMark { tree.mark with source := t.source }

/-- The node padded at the side, given what it becomes when its branches are padded one by one. A
node that may be missing is padded where it is present, and there is only text where it is not. -/
def padNode (side : Side) (t : Tree) (inside : Tree → Except PaddingError Tree) :
    Except PaddingError Tree :=
  let padOnce (t : Tree) : Except PaddingError Tree :=
    if (t.pins.on side).inAll then .ok t
    else if !(t.pins.on side).inSome then .ok (t.wrap side)
    else inside t
  if t.occurs = .once then padOnce t
  else if (t.pins.on side).inAll then .ok t
  else if !(t.pins.on side).inSome then .ok (t.wrap side)
  else if t.occurs.most = 1 then do
    let trailing : Pins := { back := t.ownPins.back }
    let present ← padOnce t.single
    let absent := padding.pinned ((Pins.only side .anchor).union trailing)
    return ofMembers [present.pinned trailing, absent]
  else .error (.partialRepeat t.describe)

mutual

/-- The tree with text added at the side wherever it is not pinned there. -/
def pad (side : Side) : Tree → Except PaddingError Tree
  | leaf cls m => padNode side (leaf cls m) fun t => .error (.partialLeaf t.describe)
  | sequence parts m =>
    padNode side (sequence parts m) fun t =>
      match parts, side with
      | [], _ => .error (.partialLeaf t.describe)
      | parts, .front => (padFirst side parts).map fun parts => t.rebuilt (ofParts parts)
      | parts, .back => (padLast side parts).map fun parts => t.rebuilt (ofParts parts)
  | choice members m =>
    padNode side (choice members m) fun t =>
      (padAll side members).map fun members => t.rebuilt (ofMembers members)

/-- The parts with text added at the first one. -/
def padFirst (side : Side) : List Tree → Except PaddingError (List Tree)
  | [] => .ok []
  | t :: ts => (pad side t).map (· :: ts)

/-- The parts with text added at the last one. -/
def padLast (side : Side) : List Tree → Except PaddingError (List Tree)
  | [] => .ok []
  | [t] => (pad side t).map ([·])
  | t :: u :: ts => (padLast side (u :: ts)).map (t :: ·)

/-- Each member with text added at the side. -/
def padAll (side : Side) : List Tree → Except PaddingError (List Tree)
  | [] => .ok []
  | t :: ts => do
    let t ← pad side t
    let ts ← padAll side ts
    return t :: ts

end

/-! ### What padding takes apart -/

/-- The node if only some of its branches are pinned at the side, and then what is taken apart
inside of it. -/
def partlyPinnedNode (side : Side) (t : Tree) (inside : List Tree) : List Tree :=
  let once (t : Tree) := if (t.pins.on side).isPartial then t :: inside else []
  if t.occurs = .once then once t
  else if (t.pins.on side).isPartial then
    t :: if t.occurs.most = 1 then once t.single else []
  else []

mutual

/-- The nodes that are taken apart when the tree is padded at the side, from the outside to the
inside. Where padding fails, the last one is the node that cannot be padded. -/
def partlyPinned (side : Side) : Tree → List Tree
  | leaf cls m => partlyPinnedNode side (leaf cls m) []
  | sequence parts m =>
    partlyPinnedNode side (sequence parts m) <|
      match side with
      | .front => partlyPinnedFirst side parts
      | .back => partlyPinnedLast side parts
  | choice members m =>
    partlyPinnedNode side (choice members m) (partlyPinnedAll side members)

/-- The nodes that are taken apart in the first part. -/
def partlyPinnedFirst (side : Side) : List Tree → List Tree
  | [] => []
  | t :: _ => partlyPinned side t

/-- The nodes that are taken apart in the last part. -/
def partlyPinnedLast (side : Side) : List Tree → List Tree
  | [] => []
  | [t] => partlyPinned side t
  | _ :: u :: ts => partlyPinnedLast side (u :: ts)

/-- The nodes that are taken apart in the members, up to the first one that cannot be padded. -/
def partlyPinnedAll (side : Side) : List Tree → List Tree
  | [] => []
  | t :: ts =>
    partlyPinned side t ++ if (pad side t).toBool then partlyPinnedAll side ts else []

end

/-- The tree with text added at both sides. -/
def padBoth (t : Tree) : Except PaddingError Tree := do
  let t ← t.pad .front
  t.pad .back

end Exemplar.Tree
