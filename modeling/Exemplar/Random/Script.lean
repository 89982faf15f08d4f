import Exemplar.Random.Source

/-!
# Scripted sources

A source that takes its answers from a list of numbers, beginning anew at the end of the list. Each
number is reduced to the interval that is asked for, so runs can be written down and repeated.
-/

namespace Exemplar

/-- A list of numbers and the place of the next one. -/
structure Script where
  draws : Array Nat
  next : Nat := 0

namespace Script

/-- The next number of the list; zero if the list is empty. -/
def draw (s : Script) : Nat × Script :=
  (s.draws[s.next]?.getD 0, { s with next := (s.next + 1) % max 1 s.draws.size })

/-- The greatest number of steps that a script takes beyond the least count without limit, plus
one. -/
def stride : Nat := 16

/-- A count from an interval. -/
def range (least below : Nat) (s : Script) : Nat × Script :=
  if unbounded ≤ below then
    let (n, s) := s.draw
    (min (cappedAdd least (n % stride)) (unbounded - 1), s)
  else if below ≤ cappedAdd least 1 then (least, s)
  else
    let (n, s) := s.draw
    (least + n % (below - least), s)

/-- A number below a bound. -/
def below (bound : Nat) (s : Script) : Nat × Script :=
  let (n, s) := s.draw
  (n % bound, s)

/-- A count lies in the interval, whatever the script says. -/
theorem range_mem {least below : Nat} (s : Script) (hb : least < below) (hu : least < unbounded) :
    least ≤ (range least below s).1 ∧ (range least below s).1 < below := by
  simp only [range]
  split
  · simp only [cappedAdd]; omega
  · split
    · dsimp only; omega
    · have := Nat.mod_lt s.draw.1 (show 0 < below - least by omega)
      dsimp only; omega

theorem range_empty {least below : Nat} (s : Script) (hb : below ≤ least)
    (hu : below < unbounded) : (range least below s).1 = least := by
  simp only [range]
  rw [if_neg (by omega), if_pos (by simp only [cappedAdd]; omega)]

/-- The source that follows a script. -/
def source : RandomSource Script where
  range := range
  order := orderBy below
  range_mem := range_mem
  range_empty := range_empty
  order_perm := orderBy_perm below

end Script

end Exemplar
