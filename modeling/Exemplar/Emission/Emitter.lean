import Exemplar.Emission.Sharing
import Exemplar.Tree.Text

/-!
# Emitters

An emitter produces random strings of given lengths. Emitters are put together as trees are: a
composite one shares the length out to its parts and leaves the rest to them.

```text
class                   as many characters, each drawn from the class
sequence                the length shared out to the parts
choice                  a member whose lengths include the length, tried in random order
repeated, [m,n] times   a number of times, and the length shared out to them
```

An emitter may fail although the length lies between its shortest and its longest string: `(ab)*`
has no strings of odd length.

## Main definitions

* `Emitter`: the type
* `Emitter.ofLeaf`, `Emitter.sequence`, `Emitter.choice`, `Emitter.repeated`: the combinators
* `Tree.emitter`: the emitter of the strings that a tree describes
-/

namespace Exemplar

/-- Produces random strings of given lengths. -/
structure Emitter (σ : Type) where
  /-- The lengths of the strings, from the shortest to the longest. -/
  length : Extent
  /-- A random string of just this length. -/
  emit : Nat → Emission σ (List Char)

namespace Emitter

variable {σ : Type}

/-- A character of a set that is not empty. -/
def character (source : RandomSource σ) (set : CharSet) : Emission σ (List Char) := do
  let i ← draw source 0 set.size
  return (set.get? i).toList

/-- The emitter of a leaf. Even a set with a single member is drawn from. -/
def ofLeaf (source : RandomSource σ) (alphabet : Alphabet) (cls : CharClass) (m : Mark) :
    Emitter σ :=
  let set := cls.resolve alphabet
  { length := m.occurs
    emit := fun total => do
      if total ∉ m.occurs then throw (.infeasible total)
      if total = 0 then return []
      if set.isEmpty then throw (.emptyClass (Tree.leaf cls m).describe)
      let texts ← (List.replicate total set).mapM (character source)
      return texts.flatten }

/-- One string after the other. -/
def sequence (source : RandomSource σ) (parts : List (Emitter σ)) : Emitter σ where
  length := .sumAll (parts.map (·.length))
  emit total := do
    let lengths ← shareOut source (parts.map (·.length)) total
    let texts ← (parts.zip lengths).mapM fun (part, length) => part.emit length
    return texts.flatten

/-- A string of one of the members. -/
def choice (source : RandomSource σ) (members : List (Emitter σ)) : Emitter σ where
  length := .hullAll (members.map (·.length))
  emit total := do
    let candidates ← shuffled source (members.filter (total ∈ ·.length))
    firstOf (.infeasible total) (candidates.map (·.emit total))

/-- How often something with lengths in `once` may occur to make up `total`. If there is no limit,
its occurrences may be empty, and no more of them are wanted than characters. -/
def occurrences? (occurs once : Extent) (total : Nat) : Option (Nat × Nat) :=
  let lowest := max occurs.least (quotientUp total once.most)
  let highest := min occurs.most (quotient total once.least)
  if highest < lowest ∨ lowest = unbounded then none
  else some (lowest, if highest = unbounded then max lowest total else highest)

/-- A string that occurs a number of times, different each time. -/
def repeated (source : RandomSource σ) (occurs : Extent) (once : Emitter σ) : Emitter σ where
  length := occurs.mul once.length
  emit total := do
    if total ∉ occurs.mul once.length then throw (.infeasible total)
    if total = 0 ∧ occurs.least = 0 then return []
    match occurrences? occurs once.length total with
    | none => throw (.infeasible total)
    | some (lowest, highest) =>
      let count ← draw source lowest (justAbove highest)
      let lengths ← shareOut source (List.replicate count once.length) total
      let texts ← lengths.mapM once.emit
      return texts.flatten

end Emitter

namespace Tree

variable {σ : Type}

mutual

/-- The emitter of the strings that the tree describes. -/
def emitter (source : RandomSource σ) (alphabet : Alphabet) : Tree → Emitter σ
  | leaf cls m => .ofLeaf source alphabet cls m
  | sequence parts m =>
    .repeated source m.occurs (.sequence source (emitters source alphabet parts))
  | choice members m =>
    .repeated source m.occurs (.choice source (emitters source alphabet members))

/-- The emitter of each tree. -/
def emitters (source : RandomSource σ) (alphabet : Alphabet) : List Tree → List (Emitter σ)
  | [] => []
  | t :: ts => t.emitter source alphabet :: emitters source alphabet ts

end

end Tree

end Exemplar
