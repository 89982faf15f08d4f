import Exemplar.Text.Decimal

/-!
# Durations

A duration in writing: the largest unit of which it has at least one, and as many decimal places as
are needed to give it in full, as in `1.5ms`.
-/

namespace Exemplar.CommandLine

/-- The decimal places of `part` out of `10 ^ places`, without zeros at the end. -/
def places (places part : Nat) : String :=
  let digits := (decimal part).leftpad places '0'
  match (digits.reverse.dropWhile (· = '0')).reverse with
  | [] => ""
  | digits => String.ofList ('.' :: digits)

/-- A number of nanoseconds in writing. -/
def durationText (nanoseconds : Nat) : String :=
  let inUnit (exponent : Nat) (unit : String) :=
    let size := Nat.pow 10 exponent
    toString (nanoseconds / size) ++ places exponent (nanoseconds % size) ++ unit
  if 1000000000 ≤ nanoseconds then inUnit 9 "s"
  else if 1000000 ≤ nanoseconds then inUnit 6 "ms"
  else if 1000 ≤ nanoseconds then inUnit 3 "µs"
  else inUnit 0 "ns"

end Exemplar.CommandLine
