import Exemplar.Random.Bits

/-!
# The ChaCha generator

The ChaCha stream cipher with twelve rounds as a bit generator: the words of the key stream, block
after block. The key is stretched from a seed of 64 bits.

## Main definitions

* `ChaCha.block`: a block of the key stream
* `ChaCha.seeded`: the generator's state for a seed
* `ChaCha.generator`: the bit generator
-/

namespace Exemplar

/-- The state of the generator. -/
structure ChaCha where
  /-- The eight words of the key. -/
  key : List UInt32
  /-- The number of the next block. -/
  counter : UInt64 := 0
  /-- The words of the present block that are still to come. -/
  pending : List UInt32 := []
deriving DecidableEq, Repr

namespace ChaCha

/-- The word with its bits moved up by `n` places, those that fall out coming in below. -/
def rotateLeft (w : UInt32) (n : UInt32) : UInt32 := (w <<< n) ||| (w >>> (32 - n))

/-- The word with its bits moved down by `n` places, those that fall out coming in above. -/
def rotateRight (w : UInt32) (n : UInt32) : UInt32 := (w >>> n) ||| (w <<< (32 - n))

/-- The word at a place of a block. -/
def word (block : Array UInt32) (i : Nat) : UInt32 := block.getD i 0

/-- A quarter round on four places of a block. -/
def quarterRound (a b c d : Nat) (block : Array UInt32) : Array UInt32 :=
  let half (r s : UInt32) (block : Array UInt32) : Array UInt32 :=
    let block := block.setIfInBounds a (word block a + word block b)
    let block := block.setIfInBounds d (rotateLeft (word block d ^^^ word block a) r)
    let block := block.setIfInBounds c (word block c + word block d)
    block.setIfInBounds b (rotateLeft (word block b ^^^ word block c) s)
  half 8 7 (half 16 12 block)

/-- A round on the columns of a block and a round on its diagonals. -/
def doubleRound (block : Array UInt32) : Array UInt32 :=
  block
    |> quarterRound 0 4 8 12 |> quarterRound 1 5 9 13
    |> quarterRound 2 6 10 14 |> quarterRound 3 7 11 15
    |> quarterRound 0 5 10 15 |> quarterRound 1 6 11 12
    |> quarterRound 2 7 8 13 |> quarterRound 3 4 9 14

/-- The first four words of every block. -/
def constants : List UInt32 := [0x61707865, 0x3320646E, 0x79622D32, 0x6B206574]

/-- The block that the rounds start from. -/
def initialBlock (key : List UInt32) (counter : UInt64) : Array UInt32 :=
  (constants ++ key ++ [counter.toUInt32, (counter >>> 32).toUInt32, 0, 0]).toArray

/-- A block of the key stream: the initial block after six double rounds, added to itself. -/
def block (key : List UInt32) (counter : UInt64) : List UInt32 :=
  let initial := initialBlock key counter
  let mixed := Nat.repeat doubleRound 6 initial
  (Array.zipWith (· + ·) mixed initial).toList

/-- The next word of the key stream. -/
def next32 (g : ChaCha) : UInt32 × ChaCha :=
  match g.pending with
  | w :: pending => (w, { g with pending })
  | [] =>
    match block g.key g.counter with
    | [] => (0, g)
    | w :: pending => (w, { g with counter := g.counter + 1, pending })

/-- The next two words of the key stream, the first one as the low half. -/
def next64 (g : ChaCha) : UInt64 × ChaCha :=
  let (low, g) := g.next32
  let (high, g) := g.next32
  ((high.toUInt64 <<< 32) ||| low.toUInt64, g)

/-- The bit generator. -/
def generator : BitGenerator ChaCha where
  word32 := next32
  word64 := next64

/-- So many words stretched from a seed: the seed goes through a linear congruence, and each word
is taken from its high bits, rotated by the number that the highest ones make. -/
def stretch (seed : UInt64) : Nat → List UInt32
  | 0 => []
  | n + 1 =>
    let state := seed * 6364136223846793005 + 11634580027462260723
    let mixed := (((state >>> 18) ^^^ state) >>> 27).toUInt32
    rotateRight mixed (state >>> 59).toUInt32 :: stretch state n

/-- The state for a seed. -/
def seeded (seed : UInt64) : ChaCha := { key := stretch seed 8 }

end ChaCha

end Exemplar
