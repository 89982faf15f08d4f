/-!
# Hexadecimal text

Code points in hexadecimal digits, written with capital or small letters, and read with either.
-/

namespace Exemplar

/-- `n` in hexadecimal with capital letters, filled up with zeros to at least `width` digits. -/
def upperHex (width n : Nat) : List Char :=
  ((Nat.toDigits 16 n).map Char.toUpper).leftpad width '0'

/-- `n` in hexadecimal with small letters. -/
def lowerHex (n : Nat) : List Char := Nat.toDigits 16 n

/-- The value of a hexadecimal digit. -/
def hexDigit? (c : Char) : Option Nat :=
  if '0' ≤ c ∧ c ≤ '9' then some (c.toNat - '0'.toNat)
  else if 'a' ≤ c ∧ c ≤ 'f' then some (c.toNat - 'a'.toNat + 10)
  else if 'A' ≤ c ∧ c ≤ 'F' then some (c.toNat - 'A'.toNat + 10)
  else none

/-- The number that the hexadecimal digits in `l` stand for, most significant first, if all are
digits. -/
def hexValue? (l : List Char) : Option Nat :=
  l.foldlM (fun value c => (hexDigit? c).map (value * 16 + ·)) 0

end Exemplar
