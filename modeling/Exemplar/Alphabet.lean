import Exemplar.CharSet.Tables
import Exemplar.Text.Hex

/-!
# Alphabets

The characters that random strings are made of. A pattern names most characters itself; an
alphabet settles the rest: what `.` and negated classes may stand for, and what counts as white
space.

## Main definitions

* `Alphabet`: a set of printable characters and a set of spaces
* `Alphabet.ofSets`: the alphabet of two sets, or why they make none
* `Options`: an alphabet, and whether a pattern has to match the whole string
-/

namespace Exemplar

/-- Why two sets do not make an alphabet. -/
inductive AlphabetError where
  | noPrintable
  /-- The printable set holds the line terminator `c`. -/
  | lineTerminator (c : Char)
  | noSpace
deriving DecidableEq, Repr

/-- The wording of an alphabet error. -/
def AlphabetError.message (e : AlphabetError) : String :=
  "invalid match options: " ++
    match e with
    | .noPrintable => "the any-printable set must not be empty"
    | .lineTerminator c =>
      "the any-printable set must not contain line terminators (found U+"
        ++ String.ofList (upperHex 4 c.toNat) ++ ")"
    | .noSpace => "the space set must not be empty"

/-- The characters that strings may be made of where the pattern leaves them open. -/
structure Alphabet where
  /-- What `.` and negated classes are drawn from. -/
  printable : CharSet
  /-- What `\s` stands for. -/
  space : CharSet
  printable_nonempty : printable.isEmpty = false
  printable_disjoint : ∀ c ∈ printable, ¬ c ∈ CharSet.lineTerminators
  space_nonempty : space.isEmpty = false

namespace Alphabet

/-- The alphabet of two sets: neither may be empty, and no line terminator is printable. -/
def ofSets (printable space : CharSet) : Except AlphabetError Alphabet :=
  if hp : printable.isEmpty = true then .error .noPrintable
  else match ht : printable.toList.find? CharSet.lineTerminators.contains with
    | some c => .error (.lineTerminator c)
    | none =>
      if hs : space.isEmpty = true then .error .noSpace
      else .ok
        { printable, space
          printable_nonempty := by simpa using hp
          printable_disjoint := fun c hc hl =>
            List.find?_eq_none.1 ht c hc (CharSet.contains_iff.2 hl)
          space_nonempty := by simpa using hs }

/-- The printable characters among the first 256, and all white space. -/
def latin : Alphabet where
  printable := .printableLatin
  space := .whiteSpace
  printable_nonempty := CharSet.isEmpty_eq_false_of_mem (c := ' ') <| by
    rw [CharSet.printableLatin, CharSet.mem_union, CharSet.mem_range]; exact .inl (by decide)
  printable_disjoint := fun _ => CharSet.not_mem_lineTerminators_of_mem_printableLatin
  space_nonempty := CharSet.isEmpty_eq_false_of_mem (c := ' ') <| by
    rw [CharSet.whiteSpace, CharSet.mem_union, CharSet.mem_ofList]; exact .inl (by decide)

instance : Inhabited Alphabet := ⟨latin⟩

end Alphabet

/-- What a pattern is compiled with. -/
structure Options where
  alphabet : Alphabet := .latin
  /-- The pattern has to match the whole string, as if it stood between `^` and `$`. -/
  whole : Bool := false

end Exemplar
