import Exemplar.Proofs.Emission.Naming
import Exemplar.Proofs.Padding.Completion
import Exemplar.Proofs.Pattern.Enclosure
import Exemplar.Proofs.Pattern.Plain

/-!
# Patterns of whole strings

A pattern that has to match the whole string is the same as one in a group between anchors. Both are
read alike, the anchors pin the group at both sides, and there is nothing left to add.

## Main results

* `Generator.Alike`: generators whose trees differ in their sources only
* `compile_enclosed`: a pattern of whole strings and the same pattern between anchors
-/

namespace Exemplar

/-! ## Generators that do the same -/

namespace Generator

/-- Generators that differ in the sources of their trees only, and in nothing that depends on more
than that. -/
structure Alike (g g' : Generator) : Prop where
  root : g.root.Alike g'.root
  text : g.text = g'.text
  length : g.length = g'.length
  /-- From the same answers of a random source, the same strings and the same errors but for the
  texts of classes. -/
  generate : ∀ (σ : Type) (source : RandomSource σ) (range : Extent) (s : σ),
    Emission.AgreesAt Eq (g.generate source range s) (g'.generate source range s)
  /-- The strings that do not match: none can be derived from either, or they have one tree. -/
  notMatching? : g.notMatching?.map Generator.root = g'.notMatching?.map Generator.root

/-- Generators with trees that are alike, and with the same alphabet, do the same. -/
theorem Alike.of_root {g g' : Generator} (hroot : g.root.Alike g'.root)
    (halphabet : g.options.alphabet = g'.options.alphabet) (hanchored : g.anchored = g'.anchored) :
    Alike g g' where
  root := hroot
  text := g.root.text_unsourced.symm.trans (hroot ▸ g'.root.text_unsourced)
  length := g.root.length_unsourced.symm.trans (hroot ▸ g'.root.length_unsourced)
  generate _ source range s := agreesAt_generate hroot halphabet source range s
  notMatching? := by
    have hcomplement : g.root.complement? g.options.alphabet g.anchored =
        g'.root.complement? g'.options.alphabet g'.anchored := by
      rw [← g.root.complement?_unsourced, hroot, Tree.complement?_unsourced, halphabet, hanchored]
    unfold Generator.notMatching?
    rw [Option.map_map, Option.map_map, hcomplement]
    rfl

end Generator

/-- A pattern of whole strings and the same pattern in a group between anchors have generators that
do the same. The anchors pin the tree at both sides in all branches, so nothing is added there. -/
theorem compile_enclosed {alphabet : Alphabet} {pattern : String} {c : Compiled}
    (h : compile ⟨alphabet, true⟩ pattern = .ok c) :
    ∃ c', compile ⟨alphabet, false⟩ ("^(?:" ++ pattern ++ ")$") = .ok c' ∧
      c.generator.Alike c'.generator ∧
      c.generator.anchored = true ∧ c'.generator.anchored = true := by
  obtain ⟨hparse, hroot, hoptions, hanchored⟩ := of_compile h
  obtain ⟨tree', hparse', halike⟩ :=
    Pattern.parse_enclosed hparse (Pattern.isPlain_of_parse rfl hparse)
  have htext : ("^(?:" ++ pattern ++ ")$").toList = Pattern.enclosed pattern.toList := by
    simp [Pattern.enclosed]
  have hpins : ∀ side, (tree'.pins.on side).inAll = true := by
    intro side
    rw [halike.pins, Tree.pins_pinned, Pins.on_union]
    cases side <;> exact Bool.or_true _
  have hcompleted : tree'.completed ⟨alphabet, false⟩ = .ok tree' := by
    rw [Tree.completed, if_neg Bool.false_ne_true, Tree.padBoth, Tree.pad_of_inAll (hpins .front)]
    exact Tree.pad_of_inAll (hpins .back)
  have hcomplete : tree'.pins.isComplete = true :=
    Bool.and_eq_true _ _ ▸ ⟨hpins .front, hpins .back⟩
  have hboth : c.tree.pinned .both = c.generator.root := Except.ok.inj hroot
  refine ⟨_, compile_of_completed (htext ▸ hparse') hcompleted, ?_, hanchored, hcomplete⟩
  exact .of_root (hboth ▸ halike.symm) (by rw [hoptions]) (hanchored.trans hcomplete.symm)

/-- A choice whose members are pinned differently. -/
theorem compile_enclosed_choice :
    ∃ c c', compile { whole := true } "^a|b*c$|d" = .ok c ∧
      compile {} ("^(?:" ++ "^a|b*c$|d" ++ ")$") = .ok c' ∧ c.generator.Alike c'.generator := by
  obtain ⟨c, hc, -⟩ := exists_of_compile
    (show ((compile { whole := true } "^a|b*c$|d").toOption.any fun _ => true) = true by
      decide +kernel)
  obtain ⟨c', hc', halike, -⟩ := compile_enclosed hc
  exact ⟨c, c', hc, hc', halike⟩

end Exemplar
