import Exemplar.Pattern.Bracket
import Mathlib.Logic.Basic

/-!
# What brackets stand for

The class of a bracket expression is kept as one set. Items that name characters one by one and
items that stand outside of a set are collected apart, and it is their combination that accepts
what some item accepts.

## Main results

* `Bracket.accepts_toClass`: the class accepts what some item accepts, or with a negation what none
  does
-/

namespace Exemplar.Pattern.Bracket

variable {items : List Item} {c : Char}

/-- Items that deny nothing add the characters that they accept. -/
theorem mem_foldl_allow {allowed : CharSet} : c ∈ items.foldl Item.allow allowed ↔
    c ∈ allowed ∨ ∃ y ∈ items, y.deny? = none ∧ y.accepts c = true := by
  induction items generalizing allowed with
  | nil => simp
  | cons y items ih =>
    rw [List.foldl_cons, ih]
    cases y with
    | char a =>
      have heq : c = a ↔ a = c := eq_comm
      simp [Item.allow, Item.deny?, Item.accepts, or_assoc, heq]
    | range lo hi => simp [Item.allow, Item.deny?, Item.accepts, or_assoc]
    | inside set => simp [Item.allow, Item.deny?, Item.accepts, or_assoc, CharSet.contains_iff]
    | outside set => simp [Item.allow, Item.deny?]

/-- The characters that are named one by one. -/
theorem mem_allowed : c ∈ allowed items ↔ ∃ y ∈ items, y.deny? = none ∧ y.accepts c = true := by
  rw [allowed, mem_foldl_allow]
  simp

/-- An item that stands outside of a set accepts what is not in the set. -/
theorem accepts_of_deny? {y : Item} {set : CharSet} (h : y.deny? = some set) :
    y.accepts c = true ↔ ¬ c ∈ set := by
  cases y with
  | outside s =>
    obtain rfl : s = set := Option.some.inj h
    simp [Item.accepts, ← CharSet.contains_iff]
  | char => cases h
  | range => cases h
  | inside => cases h

/-- A character that is not in the denied set is accepted by some item: what is denied is what all
the sets deny. -/
theorem not_mem_of_denied? {denied : CharSet} (h : denied? items = some denied) :
    ¬ c ∈ denied ↔ ∃ y ∈ items, y.deny? ≠ none ∧ y.accepts c = true := by
  unfold denied? at h
  split at h
  · cases h
  next set sets hsets =>
    obtain rfl := Option.some.inj h
    have hall : c ∈ sets.foldl .inter set ↔ ∀ s ∈ items.filterMap Item.deny?, c ∈ s := by
      rw [CharSet.mem_foldl_inter, hsets, List.forall_mem_cons]
    rw [hall]
    simp only [List.mem_filterMap, not_forall]
    constructor
    · rintro ⟨s, ⟨y, hy, hs⟩, hc⟩
      exact ⟨y, hy, by simp [hs], (accepts_of_deny? hs).mpr hc⟩
    · rintro ⟨y, hy, hne, hc⟩
      obtain ⟨s, hs⟩ := Option.ne_none_iff_exists'.mp hne
      exact ⟨s, ⟨y, hy, hs⟩, (accepts_of_deny? hs).mp hc⟩

/-- Where nothing is denied, no item denies anything. -/
theorem deny?_of_denied? (h : denied? items = none) {y : Item} (hy : y ∈ items) :
    y.deny? = none := by
  unfold denied? at h
  split at h
  next hnil =>
    apply Option.eq_none_iff_forall_ne_some.mpr
    intro s hs
    have hmem := List.mem_filterMap.mpr ⟨y, hy, hs⟩
    rw [hnil] at hmem
    cases hmem
  next => cases h

/-- The class of a bracket expression accepts what some item accepts, or with a negation what none
does. Where some item stands outside of a set, the class is given by what it excludes. -/
theorem accepts_toClass (negated : Bool) (items : List Item) (c : Char) :
    (toClass negated items).accepts c = true ↔
      ((∃ y ∈ items, y.accepts c = true) ↔ negated = false) := by
  unfold toClass
  cases hdenied : denied? items with
  | none =>
    have hall : (∃ y ∈ items, y.accepts c = true) ↔ c ∈ allowed items := by
      rw [mem_allowed]
      constructor
      · rintro ⟨y, hy, hc⟩
        exact ⟨y, hy, deny?_of_denied? hdenied hy, hc⟩
      · rintro ⟨y, hy, -, hc⟩
        exact ⟨y, hy, hc⟩
    rw [hall]
    cases negated <;> simp [CharClass.accepts, ← CharSet.contains_iff]
  | some denied =>
    have hall : (∃ y ∈ items, y.accepts c = true) ↔ ¬ c ∈ denied.diff (allowed items) := by
      rw [CharSet.mem_diff, not_and_or, not_not, not_mem_of_denied? hdenied, mem_allowed]
      constructor
      · rintro ⟨y, hy, hc⟩
        by_cases h : y.deny? = none
        · exact .inr ⟨y, hy, h, hc⟩
        · exact .inl ⟨y, hy, h, hc⟩
      · rintro (⟨y, hy, -, hc⟩ | ⟨y, hy, -, hc⟩)
        · exact ⟨y, hy, hc⟩
        · exact ⟨y, hy, hc⟩
    rw [hall]
    cases negated <;> simp [CharClass.accepts, ← CharSet.contains_iff]

end Exemplar.Pattern.Bracket
