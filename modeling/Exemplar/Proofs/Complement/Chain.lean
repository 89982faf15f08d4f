import Exemplar.Proofs.Complement.Disjoint
import Exemplar.Proofs.Emission.Exact
import Exemplar.Random.Script

/-!
# Complements of complements

A complement is a generator like any other, so it may have a complement in turn. However far this is
carried on, nothing that can be generated in one step can be generated in the next. Little is known
of the trees along the way, which no pattern was read for, and little is needed: a tree may itself
describe the empty string, and still a string that it describes is a match that stands in itself.

## Main definitions

* `Generator.complementAt?`: what complementing a generator leads to in so many steps

## Main results

* `Tree.not_mem_of_complement?`: a tree and its complement describe no string in common
* `Generator.complements_apart`: nor do two successive complements, and neither generates what the
  other one does
-/

namespace Exemplar

namespace Tree

/-- Where the classes stand for more characters, more strings are described. -/
theorem language_mono {M N : Meaning} (h : ∀ cls, M cls ⊆ N cls) {t : Tree} {w : List Char}
    (hw : w ∈ t.language M) : w ∈ t.language N := by
  obtain ⟨d, hd, htext⟩ := mem_language.mp hw
  exact mem_language.mpr ⟨d, hd.mono h, htext⟩

/-- What a tree describes is a match of it that is the whole string. -/
theorem holdsMatch_self {alphabet : Alphabet} {t : Tree} {w : List Char}
    (hw : w ∈ t.language (.drawn alphabet)) : t.HoldsMatch w w where
  mem := language_mono (Meaning.drawn_subset_accepted alphabet) hw
  infix_of := List.infix_refl w
  eq_of_isNullable _ := rfl

/-- A tree and its complement describe no string in common. -/
theorem not_mem_of_complement? {alphabet : Alphabet} {anchored : Bool} {t r : Tree} {w : List Char}
    (h : t.complement? alphabet anchored = some r) (hw : w ∈ t.language (.drawn alphabet)) :
    w ∉ r.language (.drawn alphabet) := by
  obtain ⟨-, tree, htree, rfl⟩ := of_complement? h
  rw [mem_language_pinned]
  exact fun hmem => htree.disjoint hmem (holdsMatch_self hw)

end Tree

namespace Generator

/-- The complement of the complement, and so on, after so many steps; none if there is no complement
on the way. -/
def complementAt? (g : Generator) : Nat → Option Generator
  | 0 => some g
  | k + 1 => (g.complementAt? k).bind notMatching?

variable {g a b : Generator} {k : Nat}

theorem options_notMatching? (h : g.notMatching? = some a) : a.options = g.options := by
  obtain ⟨root, -, rfl⟩ := Option.map_eq_some_iff.mp h
  rfl

/-- Complements keep the options of the pattern. -/
theorem options_complementAt? (h : g.complementAt? k = some a) : a.options = g.options := by
  induction k generalizing a with
  | zero => rw [Option.some.inj h]
  | succ k ih =>
    obtain ⟨b, hb, ha⟩ := Option.bind_eq_some_iff.mp h
    rw [options_notMatching? ha, ih hb]

theorem notMatching?_of_complementAt? (ha : g.complementAt? k = some a)
    (hb : g.complementAt? (k + 1) = some b) : a.notMatching? = some b := by
  rwa [complementAt?, ha, Option.bind_some] at hb

/-- Two successive complements of a generator, whatever generator it is and however many steps they
are away from it, describe no string in common, and nothing that one of them generates is generated
by the other: from no source, with no range of lengths. -/
theorem complements_apart (ha : g.complementAt? k = some a)
    (hb : g.complementAt? (k + 1) = some b) :
    (∀ w ∈ a.root.language (.drawn g.options.alphabet),
      w ∉ b.root.language (.drawn g.options.alphabet)) ∧
    ∀ {σ τ : Type} (source : RandomSource σ) (other : RandomSource τ) (range range' : Extent)
      (s s' : σ) (u u' : τ) (text : String), a.generate source range s = .ok text s' →
        b.generate other range' u ≠ .ok text u' := by
  obtain ⟨root, hroot, rfl⟩ := Option.map_eq_some_iff.mp (notMatching?_of_complementAt? ha hb)
  have hoptions := options_complementAt? ha
  constructor
  · intro w hw
    rw [← hoptions] at hw ⊢
    exact Tree.not_mem_of_complement? hroot hw
  · intro σ τ source other range range' s s' u u' text h h'
    exact Tree.not_mem_of_complement? hroot (mem_language_of_generate h)
      (mem_language_of_generate h')

/-- The options of patterns over the characters from the blank to the last capital letter. -/
def upToCapitals : Options where
  alphabet :=
    { printable := .range ' ' 'Z'
      space := .singleton ' '
      printable_nonempty :=
        CharSet.isEmpty_eq_false_of_mem (CharSet.mem_range.mpr (by decide : ' ' ≤ ' ' ∧ ' ' ≤ 'Z'))
      printable_disjoint := by
        intro c hc hline
        rw [CharSet.mem_range] at hc
        rw [CharSet.mem_lineTerminators] at hline
        rcases hline with rfl | rfl | rfl | rfl <;> revert hc <;> decide
      space_nonempty := rfl }

/-- The complement of `^(?:CAT|DOG)$` generates one string and its own complement another one, and
neither generates what the other one does. -/
theorem complements_apart_branches : ∃ c a b s s',
    compile upToCapitals "^(?:CAT|DOG)$" = .ok c ∧
      c.generator.complementAt? 1 = some a ∧ c.generator.complementAt? 2 = some b ∧
      a.generate Script.source .any ⟨#[5, 3, 1], 0⟩ = .ok "!%#!%" s ∧
      b.generate Script.source .any ⟨#[5, 3, 1], 0⟩ = .ok "EAGEAG" s' ∧
      ∀ {σ : Type} (source : RandomSource σ) (range : Extent) (u u' : σ),
        a.generate source range u ≠ .ok "EAGEAG" u' ∧
          b.generate source range u ≠ .ok "!%#!%" u' := by
  obtain ⟨c, hc, htest⟩ := exists_of_compile
    (show ((compile upToCapitals "^(?:CAT|DOG)$").toOption.any fun c =>
      c.generator.notMatching?.any fun a =>
        decide ((a.search Script.source .any ⟨#[5, 3, 1], 0⟩).1.result.toOption =
          some "!%#!%".toList) &&
        a.notMatching?.any fun b =>
          decide ((b.search Script.source .any ⟨#[5, 3, 1], 0⟩).1.result.toOption =
            some "EAGEAG".toList)) = true by decide +kernel)
  obtain ⟨a, ha, htest⟩ := (Option.any_eq_true _ _).mp htest
  rw [Bool.and_eq_true, decide_eq_true_eq] at htest
  obtain ⟨s, h⟩ := exists_of_search_eq htest.1
  obtain ⟨b, hb, hsearch⟩ := (Option.any_eq_true _ _).mp htest.2
  obtain ⟨s', h'⟩ := exists_of_search_eq (of_decide_eq_true hsearch)
  have ha : c.generator.complementAt? 1 = some a := ha
  have hb : c.generator.complementAt? 2 = some b := by
    rw [complementAt?, ha, Option.bind_some, hb]
  refine ⟨c, a, b, s, s', hc, ha, hb, h, h', fun source range u u' => ⟨?_, ?_⟩⟩
  · intro hgen
    exact (complements_apart ha hb).2 source Script.source range .any u u' _ s' _ hgen h'
  · exact (complements_apart ha hb).2 Script.source source .any range _ s u u' _ h

end Generator

end Exemplar
