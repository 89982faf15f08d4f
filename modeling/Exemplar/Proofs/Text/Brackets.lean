import Exemplar.Proofs.Text.Classes
import Exemplar.Pattern.Parse

/-!
# Sets between brackets

The members of a set are written in ascending order, neighbours as ranges. Between brackets this is
a pattern of its own, and reading it leads back to the set.

## Main results

* `parse_atom`: a pattern that is a single atom
* `parse_brackets`: the pattern of a set, and of the characters outside of it
-/

namespace Exemplar

/-- In ascending order the null character comes first, so what matters is whether the set has
digits. -/
theorem CharSet.isLegible_of_digits {set : CharSet} (hchars : ∀ c ∈ set, c.toNat ≤ 0xFFFF)
    (hdigits : '\x00' ∈ set → ∀ d ∈ set, d.isDigit = false) : set.IsLegible where
  chars := hchars
  spaced := (List.pairwise_of_forall_mem_list (r := fun c d => c = '\x00' → d.isDigit = false)
    fun _ hc d hd h => hdigits (h ▸ hc) d hd).isChain

namespace Pattern

variable {cls : CharClass} {first : Char} {rest : List Char}

/-- A lexeme that covers the whole text is its only token. -/
theorem tokens_eq_singleton {space : CharSet} {lexeme : Lexeme}
    (h : Lexeme.read space first rest = (lexeme, rest.length)) :
    tokens space (first :: rest) = [⟨lexeme, first :: rest⟩] := by
  rw [tokens, h]
  dsimp only
  rw [List.take_length, List.drop_length, tokens]

/-- A pattern that is a single atom. Without lookarounds it does not matter whether the whole string
has to match. -/
theorem parse_atom {options : Options}
    (h : Lexeme.read options.alphabet.space first rest = (.atom cls, rest.length)) :
    parse options (first :: rest) =
      .ok ((Tree.ofClass cls).withSource (String.ofList (first :: rest))) := by
  have hsource : excerpt (first :: rest) 0 (0 + (first :: rest).length) =
      String.ofList (first :: rest) := by
    rw [excerpt, List.drop_zero, Nat.zero_add, Nat.sub_zero, List.take_length]
  unfold parse read
  rw [tokens_eq_singleton h, ← hsource]
  cases options.whole <;> rfl

/-- A bracket expression that ends with the pattern. -/
theorem parse_bracket {options : Options}
    (h : Bracket.read options.alphabet.space rest = .ok (cls, rest.length)) :
    parse options ('[' :: rest) =
      .ok ((Tree.ofClass cls).withSource (String.ofList ('[' :: rest))) := by
  apply parse_atom
  unfold Lexeme.read
  simp only [h]

/-- The members of a set between brackets are read as the set, and with `^` in front of them as the
characters outside of it. The source of the leaf is the whole text. -/
theorem parse_brackets (options : Options) (set : CharSet) (hne : set ≠ ∅)
    (hchars : ∀ c ∈ set, c.toNat ≤ 0xFFFF)
    (hdigits : ¬('\x00' ∈ set ∧ ∃ d ∈ set, d.isDigit = true)) :
    parse options ('[' :: (Bracket.body set ++ [']'])) =
      .ok ((Tree.ofClass (.anyOf set)).withSource
        (String.ofList ('[' :: (Bracket.body set ++ [']'])))) ∧
    parse options ('[' :: '^' :: (Bracket.body set ++ [']'])) =
      .ok ((Tree.ofClass (.noneOf set)).withSource
        (String.ofList ('[' :: '^' :: (Bracket.body set ++ [']'])))) := by
  have hlegible : set.IsLegible := CharSet.isLegible_of_digits hchars fun hnull d hd =>
    Bool.eq_false_of_not_eq_true fun hdigit => hdigits ⟨hnull, d, hd, hdigit⟩
  constructor
  · have hread := Bracket.read_body hlegible hne options.alphabet.space []
    exact parse_bracket (hread.trans (by simp))
  · have hread := Bracket.read_negated hlegible hne options.alphabet.space []
    exact parse_bracket (hread.trans (by simp))

/-- The set has the null character, the characters that make ranges, end the expression and negate
it, and a run of four letters. -/
theorem parse_brackets_special : ∃ set : CharSet,
    set.toList = ['\x00', '-', ']', '^', 'a', 'b', 'c', 'd'] ∧
    parse {} "[\\0\\-\\]\\^a-d]".toList =
      .ok ((Tree.ofClass (.anyOf set)).withSource "[\\0\\-\\]\\^a-d]") ∧
    parse {} "[^\\0\\-\\]\\^a-d]".toList =
      .ok ((Tree.ofClass (.noneOf set)).withSource "[^\\0\\-\\]\\^a-d]") := by
  let set : CharSet := .ofAscending ['\x00', '-', ']', '^', 'a', 'b', 'c', 'd'] (by decide)
  have hchars : ∀ c ∈ set, c.toNat ≤ 0xFFFF := by
    have hall : (set.toList.all fun c => c.toNat ≤ 0xFFFF) = true := by decide +kernel
    simpa [CharSet.mem_iff] using hall
  have hdigits : ¬('\x00' ∈ set ∧ ∃ d ∈ set, d.isDigit = true) := by
    have hany : (set.toList.any Char.isDigit) = false := by decide +kernel
    rintro ⟨-, d, hd, hdigit⟩
    exact absurd (List.any_eq_true.mpr ⟨d, hd, hdigit⟩) (by simp [hany])
  have hparse := parse_brackets {} set (by decide +kernel) hchars hdigits
  have hbody : Bracket.body set = "\\0\\-\\]\\^a-d".toList := by decide +kernel
  rw [hbody] at hparse
  exact ⟨set, rfl, hparse⟩

end Pattern

end Exemplar
