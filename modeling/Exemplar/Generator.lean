import Exemplar.Emission.Search
import Exemplar.Pattern.Parse
import Exemplar.Tree.Complement
import Exemplar.Tree.Padding

/-!
# Generators

A pattern is compiled into a generator, which produces random strings that match it. From a
generator another one may be derived whose strings do not match.

```text
pattern   --parse-->   tree   --pad-->   generator   --complement-->   generator
```

The tree of a generator describes whole strings: where the pattern leaves an end of the string open,
the tree has text of any length there.

## Main definitions

* `compile`: the generator of a pattern, or why there is none
* `Generator.search`, `Generator.generate`: a random string with a length in a range
* `Generator.notMatching?`: a generator of strings that do not match, if one can be derived
-/

namespace Exemplar

/-- Produces random strings. -/
structure Generator where
  /-- The description of the strings. -/
  root : Tree
  /-- What the pattern was compiled with. -/
  options : Options
  /-- Whether the pattern was pinned at both sides in every branch. -/
  anchored : Bool

namespace Generator

/-- The generator in writing: a pattern of the whole string. -/
def text (g : Generator) : String := g.root.text

/-- The lengths of the strings, from the shortest to the longest. -/
def length (g : Generator) : Extent := g.root.length

/-- Generators are compared by their texts. -/
instance : Ord Generator := ⟨fun g h => compare g.text h.text⟩

instance : BEq Generator := ⟨fun g h => compare g h == .eq⟩

variable {σ : Type}

/-- Asks for a random string with a length in the range. -/
def search (g : Generator) (source : RandomSource σ) (range : Extent) (s : σ) : Search × σ :=
  (g.root.emitter source g.options.alphabet).search source range s

/-- A random string with a length in the range. -/
def generate (g : Generator) (source : RandomSource σ) (range : Extent) :
    Emission σ String := fun s =>
  match g.search source range s with
  | (⟨_, .ok text⟩, s) => .ok (String.ofList text) s
  | (⟨_, .error e⟩, s) => .error e s

/-- A generator of strings that the pattern does not match, if one can be derived. -/
def notMatching? (g : Generator) : Option Generator :=
  (g.root.complement? g.options.alphabet g.anchored).map fun root => ⟨root, g.options, true⟩

end Generator

/-- Why a pattern cannot be compiled. -/
inductive CompileError where
  /-- The text is not a pattern. -/
  | pattern (e : Pattern.Error)
  /-- There is no way to add text where the pattern leaves it open. -/
  | padding (e : Tree.PaddingError)
deriving DecidableEq, Repr

/-- The wording of a compile error. -/
def CompileError.message : CompileError → String
  | .pattern e => e.message
  | .padding e => e.message

/-- The tree of whole strings that goes with the tree of a pattern. -/
def Tree.completed (options : Options) (t : Tree) : Except Tree.PaddingError Tree :=
  if options.whole then .ok (t.pinned .both) else t.padBoth

/-- The generator of the strings that the tree of a pattern describes. -/
def Generator.ofTree (options : Options) (t : Tree) : Except Tree.PaddingError Generator :=
  (t.completed options).map fun root => ⟨root, options, options.whole || t.pins.isComplete⟩

/-- A compiled pattern. -/
structure Compiled where
  /-- The tree of the pattern. -/
  tree : Tree
  generator : Generator

/-- Compiles a pattern. -/
def compile (options : Options) (pattern : String) : Except CompileError Compiled := do
  let tree ← (Pattern.parse options pattern.toList).mapError .pattern
  let generator ← (Generator.ofTree options tree).mapError .padding
  return { tree, generator }

end Exemplar
