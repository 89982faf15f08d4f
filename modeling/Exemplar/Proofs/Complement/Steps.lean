import Exemplar.Tree.Complement

/-!
# What complementing does

A complement is any text at all but the empty one, or one of the derivations that apply, or a choice
between both of them.

## Main definitions

* `Tree.Complement`: the trees that a complement can be

## Main results

* `Tree.of_complement?`: a complement is one of them
* `Tree.leaf_or_empty_of_mem_derivations`: the derivations are small trees
-/

namespace Exemplar.Tree

/-- Any text that is not empty, without line terminators. -/
def anyText : Tree := (ofClass .dot).withOccurs (.atLeast 1)

/-- What a complement of `t` can be, but for its pins. -/
inductive Complement (alphabet : Alphabet) (t : Tree) : Tree → Prop where
  /-- Nothing but the empty string is described. -/
  | text : t.isNullable = true → t.leading = [] → Complement alphabet t anyText
  | derivation {tree : Tree} : tree ∈ t.derivations alphabet → Complement alphabet t tree
  | derivations : t.derivations alphabet ≠ [] →
      Complement alphabet t (ofMembers (t.derivations alphabet))

variable {alphabet : Alphabet} {anchored : Bool} {t r : Tree}

/-- A complement of a tree that describes the empty string exists only where the pattern was pinned
at both sides. -/
theorem of_complement? (h : t.complement? alphabet anchored = some r) :
    (t.isNullable = true → anchored = true) ∧
      ∃ tree, Complement alphabet t tree ∧ r = tree.pinned .both := by
  unfold complement? at h
  split at h
  · cases h
  next hnull =>
    refine ⟨by simpa using hnull, ?_⟩
    split at h
    next htext =>
      rw [Bool.and_eq_true, List.isEmpty_iff] at htext
      exact ⟨anyText, .text htext.1 htext.2, (Option.some.inj h).symm⟩
    next =>
      split at h
      · cases h
      next tree hone =>
        have hmem : tree ∈ t.derivations alphabet := by simp [hone]
        exact ⟨tree, .derivation hmem, (Option.some.inj h).symm⟩
      next hnone _ => exact ⟨_, .derivations hnone, (Option.some.inj h).symm⟩

/-- The derivations that apply. -/
theorem of_mem_derivations {tree : Tree} (h : tree ∈ t.derivations alphabet) :
    t.wrongBeginning? alphabet = some tree ∨
      0 < t.length.least ∧ tree = t.tooShort alphabet := by
  rw [derivations, List.mem_append, Option.mem_toList] at h
  apply h.imp id
  intro h
  split at h
  next hpos => exact ⟨hpos, List.mem_singleton.mp h⟩
  next => cases h

/-- A derivation is a class that occurs some number of times, or the empty string. -/
theorem leaf_or_empty_of_mem_derivations {tree : Tree} (h : tree ∈ t.derivations alphabet) :
    (∃ cls m, tree = leaf cls m) ∨ tree = empty := by
  rcases of_mem_derivations h with h | ⟨-, rfl⟩
  · unfold wrongBeginning? at h
    dsimp only at h
    split at h
    · cases h
    · exact .inl ⟨_, _, (Option.some.inj h).symm⟩
  · unfold tooShort
    dsimp only
    split
    · exact .inr rfl
    · exact .inl ⟨_, _, rfl⟩

end Exemplar.Tree
