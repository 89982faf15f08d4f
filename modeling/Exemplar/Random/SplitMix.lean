import Exemplar.Random.Bits

/-!
# The SplitMix generator

The state advances by a fixed odd number; each word is the state after two rounds of shifting and
multiplying and a last shift.
-/

namespace Exemplar

/-- The state of the generator. -/
structure SplitMix where
  state : UInt64
deriving DecidableEq, Repr

namespace SplitMix

/-- The next word of 64 bits. -/
def next (g : SplitMix) : UInt64 × SplitMix :=
  let state := g.state + 0x9E3779B97F4A7C15
  let z := (state ^^^ (state >>> 30)) * 0xBF58476D1CE4E5B9
  let z := (z ^^^ (z >>> 27)) * 0x94D049BB133111EB
  (z ^^^ (z >>> 31), ⟨state⟩)

/-- The bit generator; a word of 32 bits is the high half of one of 64. -/
def generator : BitGenerator SplitMix where
  word64 := next
  word32 g :=
    let (w, g) := g.next
    ((w >>> 32).toUInt32, g)

end SplitMix

end Exemplar
