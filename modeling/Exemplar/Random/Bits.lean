import Exemplar.Random.Source

/-!
# Sources over bit generators

A bit generator yields words of random bits. A number below a bound is the high half of the product
of a word and the bound; words that would favour some numbers over others are refused and drawn
anew. A count without limit is found by steps, each taken with a chance that makes the mean number
of steps a given one.

## Main definitions

* `BitGenerator`: a generator with states in `γ`
* `accepts`, `uniform`: numbers below a bound, all equally likely
* `nearestEven`, `toDouble`: quotients and numbers rounded to 53 binary digits
* `stepThreshold`, `countSteps`: counts without limit
* `RandomSource.ofBits`: the source over a bit generator
-/

namespace Exemplar

/-- A generator of random bits with states in `γ`. -/
structure BitGenerator (γ : Type) where
  /-- A word of 32 bits. -/
  word32 : γ → UInt32 × γ
  /-- A word of 64 bits. -/
  word64 : γ → UInt64 × γ

/-- A word of 32 bits as a bit vector. -/
def BitGenerator.bits32 {γ : Type} (gen : BitGenerator γ) (g : γ) : BitVec 32 × γ :=
  let (w, g) := gen.word32 g
  (w.toBitVec, g)

/-- A word of 64 bits as a bit vector. -/
def BitGenerator.bits64 {γ : Type} (gen : BitGenerator γ) (g : γ) : BitVec 64 × γ :=
  let (w, g) := gen.word64 g
  (w.toBitVec, g)

/-! ### Numbers below a bound -/

/-- The greatest low half of an accepted product: one less than the largest multiple of `n` by a
power of two that fits into `width` bits. -/
def acceptanceZone (width n : Nat) : Nat := (n <<< (width - 1 - n.log2)) - 1

/-- Whether the word `v` yields a number below `n`. -/
def accepts {width : Nat} (n : Nat) (v : BitVec width) : Bool :=
  v.toNat * n % (1 <<< width) ≤ acceptanceZone width n

/-- The number below `n` that the word `v` yields: the high half of their product. -/
def highHalf {width : Nat} (n : Nat) (v : BitVec width) : Nat := (v.toNat * n) >>> width

/-- A number below `n` from the first word that is accepted. After `patience` words that are not,
the next one is taken as it comes. -/
def uniform {width : Nat} {γ : Type} (word : γ → BitVec width × γ) (n : Nat) :
    (patience : Nat) → γ → Nat × γ
  | 0, g =>
    let (v, g) := word g
    (highHalf n v, g)
  | patience + 1, g =>
    let (v, g) := word g
    if accepts n v then (highHalf n v, g) else uniform word n patience g

/-- More refusals in a row than any generator of random bits will show: a word is refused with a
chance of less than one half. -/
def patience : Nat := 1 <<< 16

theorem highHalf_lt {width n : Nat} (h : 0 < n) (v : BitVec width) : highHalf n v < n := by
  rw [highHalf, Nat.shiftRight_eq_div_pow, Nat.div_lt_iff_lt_mul (Nat.two_pow_pos width),
    Nat.mul_comm]
  exact Nat.mul_lt_mul_of_pos_left v.isLt h

/-- Whatever words are drawn, the number is below the bound. -/
theorem uniform_lt {width n : Nat} {γ : Type} (word : γ → BitVec width × γ) (h : 0 < n)
    (patience : Nat) (g : γ) : (uniform word n patience g).1 < n := by
  induction patience generalizing g with
  | zero => exact highHalf_lt h _
  | succ p ih =>
    simp only [uniform]
    split
    · exact highHalf_lt h _
    · exact ih _

/-! ### Rounding -/

/-- The number nearest to `a / b`; of two that are equally near, the even one. -/
def nearestEven (a b : Nat) : Nat :=
  let down := a / b
  let rest := a % b
  if 2 * rest < b ∨ 2 * rest = b ∧ down % 2 = 0 then down else down + 1

/-- The number nearest to `n` that has 53 binary digits, apart from zeros behind them; of two that
are equally near, the one whose last digit is even. -/
def toDouble (n : Nat) : Nat :=
  let unit := 1 <<< (n.log2 - 52)
  nearestEven n unit * unit

/-! ### Counts without limit -/

/-- A step is taken if a word of 64 bits is below this number. Its share of all words is
`mean / (mean + 1)`, where the mean, its successor and their quotient are rounded to 53 binary
digits each. -/
def stepThreshold (mean : Nat) : Nat :=
  let mean := toDouble mean
  nearestEven (mean <<< 53) (toDouble (mean + 1)) <<< 11

/-- The number of steps until the first one that is not taken, at most `limit`. -/
def countSteps {γ : Type} (gen : BitGenerator γ) (threshold : Nat) :
    (limit : Nat) → (steps : Nat) → γ → Nat × γ
  | 0, steps, g => (steps, g)
  | limit + 1, steps, g =>
    let (w, g) := gen.word64 g
    if w.toNat < threshold then countSteps gen threshold limit (steps + 1) g else (steps, g)

/-- A number of steps with the given mean, at most `unbounded` of them. -/
def steps {γ : Type} (gen : BitGenerator γ) (mean : Nat) (g : γ) : Nat × γ :=
  if mean = 0 then (0, g) else countSteps gen (stepThreshold mean) unbounded 0 g

/-! ### The source -/

/-- A count from an interval. -/
def BitGenerator.range {γ : Type} (gen : BitGenerator γ) (typicalExtra least below : Nat) (g : γ) :
    Nat × γ :=
  if unbounded ≤ below then
    let (n, g) := steps gen typicalExtra g
    (min (cappedAdd least n) (unbounded - 1), g)
  else if below ≤ cappedAdd least 1 then (least, g)
  else
    let (n, g) := uniform gen.bits64 (below - least) patience g
    (least + n, g)

/-- A number below a bound, from a word of 32 bits if the bound has no more. -/
def BitGenerator.below {γ : Type} (gen : BitGenerator γ) (bound : Nat) (g : γ) : Nat × γ :=
  if bound < UInt32.size then uniform gen.bits32 bound patience g
  else uniform gen.bits64 bound patience g

/-- The mean number of steps beyond the least count, where nothing else is said. -/
def defaultTypicalExtra : Nat := 8

/-- A count lies in the interval, whatever words are drawn. -/
theorem BitGenerator.range_mem {γ : Type} (gen : BitGenerator γ) (typicalExtra : Nat)
    {least below : Nat} (g : γ) (hb : least < below) (hu : least < unbounded) :
    least ≤ (gen.range typicalExtra least below g).1 ∧
      (gen.range typicalExtra least below g).1 < below := by
  simp only [BitGenerator.range]
  split
  · simp only [cappedAdd]; omega
  · split
    · dsimp only; omega
    · have := uniform_lt gen.bits64 (show 0 < below - least by omega) patience g
      dsimp only; omega

theorem BitGenerator.range_empty {γ : Type} (gen : BitGenerator γ) (typicalExtra : Nat)
    {least below : Nat} (g : γ) (hb : below ≤ least) (hu : below < unbounded) :
    (gen.range typicalExtra least below g).1 = least := by
  simp only [BitGenerator.range]
  rw [if_neg (by omega), if_pos (by simp only [cappedAdd]; omega)]

/-- The source over a bit generator. Counts without limit exceed the least one by `typicalExtra` in
the mean. -/
def RandomSource.ofBits {γ : Type} (gen : BitGenerator γ) (typicalExtra : Nat) :
    RandomSource γ where
  range := gen.range typicalExtra
  order := orderBy gen.below
  range_mem := gen.range_mem typicalExtra
  range_empty := gen.range_empty typicalExtra
  order_perm := orderBy_perm gen.below

end Exemplar
