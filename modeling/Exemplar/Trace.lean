import Exemplar.Generator
import Exemplar.Text.Quoted

/-!
# Traces

The steps that lead from a pattern to random strings, for those who want to know why a pattern
gives the strings it gives. A trace never changes what it reports on: it is computed from the same
parts.

## Main definitions

* `Event`: a step
* `traceOfCompile`, `traceOfSearch`, `traceOfComplement`: the steps of each activity
-/

namespace Exemplar

/-- A step on the way from a pattern to random strings. -/
inductive Event where
  /-- A quantifier was reduced, because its atom at the position is pinned. -/
  | clamped (clamp : Pattern.Clamp)
  /-- A pattern was read. -/
  | parsed (size : Nat) (length : Extent) (pins : Pins)
  /-- A node was taken apart, because only some of its branches are pinned at the side. -/
  | partlyPinned (side : Side) (node : String)
  /-- A pattern was compiled. -/
  | compiled (pattern : String) (tree : Tree) (generator : Generator)
  /-- A string of the given length was found. -/
  | found (length attempts : Nat)
  /-- There is no string of the given length. -/
  | missed (attempt length : Nat) (lengths : Extent)
  /-- Nothing but the empty string matches. -/
  | onlyEmpty
  /-- The empty string matches, so every string does. -/
  | everyString
  /-- No character is unfit to begin a match. -/
  | everyBeginning
  /-- A complement was put together. -/
  | derived (leading required results : Nat)

/-- A step in writing. -/
def Event.text : Event → String
  | clamped ⟨occurs, position⟩ =>
    s!"[parse] clamping {occurs.text} repetition of anchored atom at {position}"
  | parsed size length pins => s!"[parse] nodes={size} length={length.text} anchors={pins.text}"
  | partlyPinned side node => s!"[normalize] partial {side.title} anchor on {node}"
  | compiled pattern tree generator =>
    s!"[compile] pattern={quoted pattern} normalized={generator.text} "
      ++ s!"length={generator.length.text} anchored={generator.anchored} "
      ++ s!"nodes={tree.size}->{generator.root.size}"
  | found length attempts => s!"[generate] length={length} attempts={attempts}"
  | missed attempt length lengths =>
    s!"[generate] attempt {attempt}: no string of length {length} in {lengths.text}"
  | onlyEmpty => "[complement] only the empty string matches"
  | everyString => "[complement] unanchored pattern matches the empty string"
  | everyBeginning => "[complement] every first character can start a match"
  | derived leading required results =>
    s!"[complement] leading={leading} required={required} results={results}"

/-- The nodes that are taken apart when text is added around a tree. -/
def traceOfPadding (t : Tree) : List Event :=
  let nodesAt (side : Side) (t : Tree) :=
    (t.partlyPinned side).map fun u => .partlyPinned side u.describe
  nodesAt .front t ++ ((t.pad .front).toOption.map (nodesAt .back)).getD []

/-- The steps of compiling a pattern. -/
def traceOfCompile (options : Options) (pattern : String) : List Event :=
  let reading := Pattern.read options pattern.toList
  reading.clamps.map .clamped ++
    match reading.result with
    | .error _ => []
    | .ok tree =>
      .parsed tree.size tree.length tree.pins ::
        (if options.whole then [] else traceOfPadding tree) ++
        match Generator.ofTree options tree with
        | .error _ => []
        | .ok generator => [.compiled pattern tree generator]

/-- The steps of looking for a string. -/
def traceOfSearch (g : Generator) (range : Extent) (search : Search) : List Event :=
  let missed (lengths : Extent) := search.failed.mapIdx fun i n => .missed (i + 1) n lengths
  let found :=
    match search.result with
    | .ok text => [.found text.length (search.failed.length + 1)]
    | .error _ => []
  match g.length.clip range with
  | .ok lengths => missed lengths ++ found
  | .error _ => []

/-- The steps of deriving a generator of strings that do not match. -/
def traceOfComplement (g : Generator) : List Event :=
  let t := g.root
  let alphabet := g.options.alphabet
  if t.isNullable && t.leading.isEmpty then if g.anchored then [.onlyEmpty] else []
  else if t.isNullable && !g.anchored then [.everyString]
  else
    (if !t.required.isEmpty && (t.mismatches alphabet).isEmpty then [.everyBeginning] else []) ++
      [.derived t.leading.length t.required.length (t.derivations alphabet).length]

end Exemplar
