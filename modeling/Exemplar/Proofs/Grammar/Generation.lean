import Exemplar.Proofs.Complement.Disjoint
import Exemplar.Proofs.Emission.Exact
import Exemplar.Proofs.Grammar.Reading
import Exemplar.Proofs.Matching.Strings
import Exemplar.Random.Script

/-!
# Strings that match and strings that do not

A syntax tree says what its text matches, without a word about how the text is read or how strings
are generated. Strings generated from the text match the syntax tree, and strings generated from the
complement do not.

## Main definitions

* `Alternation.Accepts`: a string has a match of the syntax tree in it

## Main results

* `Alternation.accepts_iff`: a string has a match where the tree of the pattern matches in it
* `accepts_of_generate`: generated strings match
* `not_accepts_of_generate`: strings generated from the complement do not
-/

namespace Exemplar

namespace Grammar

/-- The string has a match of the syntax tree in it: somewhere, or over its whole length if the
options ask for that. -/
def Alternation.Accepts (options : Options) (a : Alternation) (text : String) : Prop :=
  (a.matcher options.alphabet.space).MatchesIn options.whole text.toList

variable {options : Options} {a : Alternation} {c : Compiled}

/-- A string has a match where the tree of the pattern matches in it. -/
theorem Alternation.accepts_iff (hc : compile options (String.ofList a.text) = .ok c)
    {text : String} :
    a.Accepts options text ↔ c.tree.spans.MatchesIn options.whole text.toList := by
  obtain ⟨hparse, -, -, -⟩ := of_compile hc
  rw [String.toList_ofList] at hparse
  obtain ⟨look, hrealizes, hlook⟩ := realizes_of_parse a hparse
  exact (hrealizes.matchesIn_iff hlook).symm

/-- Whatever is generated from the text of a syntax tree, from whatever source and with whatever
range of lengths, matches the syntax tree. -/
theorem accepts_of_generate (options : Options) (a : Alternation) {c : Compiled}
    (hc : compile options (String.ofList a.text) = .ok c) {σ : Type} (source : RandomSource σ)
    (target : Extent) {s s' : σ} {text : String}
    (h : c.generator.generate source target s = .ok text s') : a.Accepts options text := by
  obtain ⟨hparse, hroot, hoptions, -⟩ := of_compile hc
  have hmem := Generator.mem_language_of_generate h
  rw [hoptions] at hmem
  rw [Alternation.accepts_iff hc]
  exact Tree.matchesIn_of_mem_completed (Pattern.built_of_parse hparse).consistent hroot hmem

/-- The syntax tree of `^a|b`. -/
def startOrAnywhere : Alternation :=
  .bar (.cons (.mk .caret (.once (.symbol (.plain 'a' (by decide)))) .none) .nil)
    (.one (.cons (.mk .none (.once (.symbol (.plain 'b' (by decide)))) .none) .nil))

/-- Something is generated from `^a|b`, and it matches. -/
theorem accepts_of_generate_startOrAnywhere : ∃ (c : Compiled) (text : String) (s' : Script),
    compile {} (String.ofList startOrAnywhere.text) = .ok c ∧
      c.generator.generate Script.source .any ⟨#[], 0⟩ = .ok text s' ∧
        startOrAnywhere.Accepts {} text := by
  obtain ⟨c, hc, hsearch⟩ := exists_of_compile
    (show ((compile {} (String.ofList startOrAnywhere.text)).toOption.any fun c =>
      (c.generator.search Script.source .any ⟨#[], 0⟩).1.result.toBool) = true by decide +kernel)
  obtain ⟨text, s', h⟩ := Generator.exists_of_search hsearch
  exact ⟨c, text, s', hc, h, accepts_of_generate {} startOrAnywhere hc Script.source .any h⟩

/-- Whatever is generated from the complement of the text of a syntax tree, from whatever source and
with whatever range of lengths, does not match the syntax tree. -/
theorem not_accepts_of_generate (options : Options) (a : Alternation) {c : Compiled} {g : Generator}
    (hc : compile options (String.ofList a.text) = .ok c) (hg : c.generator.notMatching? = some g)
    {σ : Type} (source : RandomSource σ) (target : Extent) {s s' : σ} {text : String}
    (h : g.generate source target s = .ok text s') : ¬ a.Accepts options text := by
  obtain ⟨hparse, hroot, hoptions, hanchored⟩ := of_compile hc
  obtain ⟨root, hcomplement, rfl⟩ := Option.map_eq_some_iff.mp hg
  obtain ⟨hnullable, tree, htree, rfl⟩ := Tree.of_complement? hcomplement
  have hmem := Tree.mem_language_pinned.mp (Generator.mem_language_of_generate h)
  rw [Alternation.accepts_iff hc]
  intro hmatch
  obtain ⟨w, hw, hin, hwhole⟩ :=
    Tree.exists_mem_completed (Pattern.built_of_parse hparse).consistent hroot hmatch
  exact htree.disjoint hmem ⟨hw, hin, fun hnull => hwhole (hanchored ▸ hnullable hnull)⟩

/-- The syntax tree of a letter. -/
def letter (c : Char) (h : c ∉ reserved) : Term := .mk .none (.once (.symbol (.plain c h))) .none

/-- The syntax tree of `^(?:cat|dog)$`. -/
def catOrDog : Alternation :=
  .one (.cons (.mk .caret (.once (.group .nonCapturing
    (.bar (.cons (letter 'c' (by decide)) (.cons (letter 'a' (by decide))
        (.cons (letter 't' (by decide)) .nil)))
      (.one (.cons (letter 'd' (by decide)) (.cons (letter 'o' (by decide))
        (.cons (letter 'g' (by decide)) .nil))))))) .dollar) .nil)

/-- Five characters are generated from the complement of `^(?:cat|dog)$`, and do not match. -/
theorem not_accepts_of_generate_catOrDog : ∃ (c : Compiled) (g : Generator) (s' : Script),
    compile {} (String.ofList catOrDog.text) = .ok c ∧ c.generator.notMatching? = some g ∧
      g.generate Script.source .any ⟨#[5, 3, 1], 0⟩ = .ok "%9/%9" s' ∧
        ¬ catOrDog.Accepts {} "%9/%9" := by
  obtain ⟨c, hc, htest⟩ := exists_of_compile
    (show ((compile {} (String.ofList catOrDog.text)).toOption.any fun c =>
      c.generator.notMatching?.any fun g =>
        decide ((g.search Script.source .any ⟨#[5, 3, 1], 0⟩).1.result.toOption =
          some "%9/%9".toList)) = true by decide +kernel)
  obtain ⟨g, hg, hsearch⟩ := (Option.any_eq_true _ _).mp htest
  obtain ⟨s', h⟩ := Generator.exists_of_search_eq (of_decide_eq_true hsearch)
  exact ⟨c, g, s', hc, hg, h, not_accepts_of_generate {} catOrDog hc hg Script.source .any h⟩

end Grammar

end Exemplar
