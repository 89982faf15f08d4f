import Exemplar.Proofs.Matching.Realizes

/-!
# Patterns without lookarounds

A pattern without lookarounds has a tree that is held by none.

## Main definitions

* `IsPlain`: no lookaround holds the tree

## Main results

* `closed_plain`: without lookarounds, reading builds trees that are held by none
* `isPlain_of_parse`: a pattern of a whole string does not look around itself
-/

namespace Exemplar.Pattern

/-- No lookaround holds the tree at a side. -/
def IsPlain (t : Tree) : Prop := ∀ side, (t.pins.on side).byLook = false

theorem isPlain_ofParts {parts : List Tree} (h : ∀ t ∈ parts, IsPlain t) :
    IsPlain (.ofParts parts) := by
  intro side
  have hpins : (Tree.ofParts parts).pins = Tree.pinsOfParts parts := rfl
  rw [hpins, Tree.pinsOfParts_on]
  cases hfirst : side.outermost parts with
  | none => rfl
  | some t => exact h t (Side.mem_of_outermost hfirst) side

theorem isPlain_ofMembers {members : List Tree} (h : ∀ t ∈ members, IsPlain t) :
    IsPlain (.ofMembers members) := by
  intro side
  have hpins : (Tree.ofMembers members).pins = Tree.pinsOfMembers members := rfl
  rw [hpins, Tree.pinsOfMembers_on]
  simp only [Pin.ofBranches, List.any_map, List.any_eq_false]
  intro t ht
  simp [h t ht side]

/-- Without lookarounds, reading builds trees that are held by none. -/
theorem closed_plain {classes : CharClass → Prop} {looks : Prop} (hlooks : ¬looks) :
    Closed classes looks IsPlain where
  ofClass _ side := by cases side <;> rfl
  empty := isPlain_ofParts nofun
  withSource _ h side := by rw [Tree.withSource, Tree.pins_withMark]; exact h side
  ofParts _ h := isPlain_ofParts fun t ht => by
    obtain ⟨part, hpart, rfl⟩ := List.mem_map.mp ht
    exact h part hpart
  ofMembers _ := isPlain_ofMembers
  repeated h _ _ side := by rw [Realizes.byLook_repeated]; exact h side
  looked _ h := absurd h hlooks
  anchored side' h _ side := by rw [Realizes.byLook_pinned_anchor]; exact h side

/-- Where the whole string has to match, a pattern does not look around itself. -/
theorem isPlain_of_parse {options : Options} {pattern : List Char} {tree : Tree}
    (hwhole : options.whole = true) (h : parse options pattern = .ok tree) : IsPlain tree :=
  Closed.of_parse (closed_plain (by simp [hwhole])) h

end Exemplar.Pattern
