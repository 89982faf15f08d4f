/-!
# Decimal text

Numbers in decimal digits, written without leading zeros and read with any number of them.
-/

namespace Exemplar

/-- `n` in decimal digits. -/
def decimal (n : Nat) : List Char := Nat.toDigits 10 n

/-- The number that decimal digits stand for, most significant first. -/
def decimalValue (digits : List Char) : Nat := Nat.ofDigitChars 10 digits 0

@[simp] theorem decimalValue_decimal (n : Nat) : decimalValue (decimal n) = n :=
  Nat.ofDigitChars_ten_toDigits

/-- A number is written in digits and nothing else. -/
theorem isDigit_of_mem_decimal {n : Nat} {c : Char} (h : c ∈ decimal n) : c.isDigit = true :=
  Nat.isDigit_of_mem_toDigits (by decide) (by decide) h

end Exemplar
