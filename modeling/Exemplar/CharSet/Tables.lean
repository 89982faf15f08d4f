import Exemplar.CharSet.Lemmas

/-!
# Tables of characters

The sets that patterns refer to by an escape, and those that take part in the choice of what a
random character may be.
-/

namespace Exemplar.CharSet

/-- The printable characters of the first 256: U+0020 to U+007E and U+00A0 to U+00FF. -/
def printableLatin : CharSet := (range ' ' '~').union (range '\u00A0' '\u00FF')

/-- White space: the tabulators, spaces, line terminators and the byte order mark. -/
def whiteSpace : CharSet :=
  (ofList ['\t', '\n', '\x0B', '\x0C', '\r', ' ', '\u00A0', '\u1680', '\u2028', '\u2029', '\u202F',
    '\u205F', '\u3000', '\uFEFF']).union (range '\u2000' '\u200A')

/-- The characters that end a line. -/
def lineTerminators : CharSet := ofList ['\n', '\r', '\u2028', '\u2029']

/-- The decimal digits. -/
def digits : CharSet := range '0' '9'

/-- The characters of words: letters without accents, digits and the underscore. -/
def wordChars : CharSet :=
  (((range 'a' 'z').union (range 'A' 'Z')).union digits).insert '_'

theorem mem_lineTerminators {c : Char} :
    c ∈ lineTerminators ↔ c = '\n' ∨ c = '\r' ∨ c = '\u2028' ∨ c = '\u2029' := by
  simp [lineTerminators]

/-- No printable character ends a line. -/
theorem not_mem_lineTerminators_of_mem_printableLatin {c : Char} (h : c ∈ printableLatin) :
    ¬ c ∈ lineTerminators := by
  rw [printableLatin, mem_union, mem_range, mem_range] at h
  rw [mem_lineTerminators]
  rintro (rfl | rfl | rfl | rfl) <;> revert h <;> decide

end Exemplar.CharSet
