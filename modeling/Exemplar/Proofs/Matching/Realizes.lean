import Exemplar.Proofs.Matching.Spans

/-!
# Trees that realize matchers

A tree realizes a matcher when it stands in a string wherever the matcher matches, and nowhere else.
The text of a lookaround is a part of the tree and not of the match, so the ends that a lookaround
holds may differ. Each way in which reading puts trees together goes with a way to put matchers
together.

## Main definitions

* `Realizes`: a tree realizes a matcher

## Main results

* `Realizes.ofParts`, `Realizes.ofMembers`, `Realizes.repeated`, `Realizes.pinned_front`,
  `Realizes.pinned_back`: trees that are put together
-/

namespace Exemplar.Pattern

open Matcher Exemplar.Tree

/-- A tree that has been built stands where the matcher matches, but for the ends that are held by
lookarounds. `look` tells whether there may be any. -/
structure Realizes (look : Bool) (t : Tree) (m : Matcher) : Prop where
  built : Built t
  plain : look = false → ∀ side, (t.pins.on side).byLook = false
  alike : Alike t.pins.front.byLook t.pins.back.byLook t.spans m

namespace Realizes

variable {look : Bool} {t : Tree} {m : Matcher}

theorem mono (h : Realizes look t m) {look' : Bool} (hl : look = true → look' = true) :
    Realizes look' t m where
  built := h.built
  plain h' := h.plain (by
    by_contra hlook
    rw [hl (by simpa using hlook)] at h'
    cases h')
  alike := h.alike

theorem ofClass (look : Bool) (cls : CharClass) :
    Realizes look (.ofClass cls) (.char (Meaning.accepted cls)) where
  built := .ofClass cls
  plain _ side := by cases side <;> rfl
  alike := by
    rw [spans_ofClass]
    exact .refl _

theorem empty (look : Bool) : Realizes look .empty 1 where
  built := .empty
  plain _ side := by cases side <;> rfl
  alike := by
    rw [spans_empty]
    exact .refl _

/-- The text of a tree makes no difference to what it realizes. -/
theorem withSource (h : Realizes look t m) (source : String) :
    Realizes look (t.withSource source) m where
  built := .withSource source h.built
  plain hl side := by
    rw [Tree.withSource, pins_withMark]
    exact h.plain hl side
  alike := by
    rw [spans_withSource, Tree.withSource, pins_withMark]
    exact h.alike

/-- An anchor is no lookaround. -/
theorem byLook_pinned_anchor (t : Tree) (side side' : Side) :
    ((t.pinned (.only side .anchor)).pins.on side').byLook = (t.pins.on side').byLook := by
  rw [pins_pinned, Pins.on_union]
  cases side <;> cases side' <;> simp [Pin.union, Pins.only, Pins.on, Pin.anchor, Pin.free]

/-- An anchor at the front realizes a match at the beginning. -/
theorem pinned_front (h : Realizes look t m) (hl : t.pins.front.byLook = false) :
    Realizes look (t.pinned (.only .front .anchor)) (atStart * m) where
  built := .anchored .front h.built hl
  plain hlook side := (byLook_pinned_anchor t .front side).trans (h.plain hlook side)
  alike := by
    have hfirst : Alike false false atStart atStart := .refl _
    have halike := h.alike
    have hfront := byLook_pinned_anchor t .front .front
    have hback := byLook_pinned_anchor t .front .back
    simp only [Pins.on] at hfront hback
    rw [spans_pinned_front, hfront, hback]
    rw [hl] at halike ⊢
    exact hfirst.mul halike

/-- An anchor at the back realizes a match at the end. -/
theorem pinned_back (h : Realizes look t m) (hl : t.pins.back.byLook = false) :
    Realizes look (t.pinned (.only .back .anchor)) (m * atEnd) where
  built := .anchored .back h.built hl
  plain hlook side := (byLook_pinned_anchor t .back side).trans (h.plain hlook side)
  alike := by
    have hlast : Alike false false atEnd atEnd := .refl _
    have halike := h.alike
    have hfront := byLook_pinned_anchor t .back .front
    have hback := byLook_pinned_anchor t .back .back
    simp only [Pins.on] at hfront hback
    rw [spans_pinned_back, hfront, hback]
    rw [hl] at halike ⊢
    exact halike.mul hlast

/-! ## Sequences and choices -/

theorem byLook_ofMembers {members : List Tree} (side : Side)
    (h : ((Tree.ofMembers members).pins.on side).byLook = false) :
    ∀ t ∈ members, (t.pins.on side).byLook = false := by
  intro t ht
  have hpins : (Tree.ofMembers members).pins = pinsOfMembers members := rfl
  rw [hpins, pinsOfMembers_on] at h
  simp only [Pin.ofBranches, List.any_eq_false, List.mem_map] at h
  simpa using h _ ⟨t, ht, rfl⟩

/-- A choice between trees realizes a choice between matchers. A lookaround in one member makes the
ends of the whole choice loose. -/
theorem ofMembers {members : List Tree} {ms : List Matcher}
    (h : List.Forall₂ (Realizes look) members ms) :
    Realizes look (.ofMembers members) (.anyOf ms) where
  built := .ofMembers fun t ht => by
    obtain ⟨m, -, hm⟩ := exists_right_of_mem h ht
    exact hm.built
  plain hlook side := by
    have hpins : (Tree.ofMembers members).pins = pinsOfMembers members := rfl
    rw [hpins, pinsOfMembers_on]
    simp only [Pin.ofBranches, List.any_map, List.any_eq_false]
    intro t ht
    obtain ⟨m, -, hm⟩ := exists_right_of_mem h ht
    simp [hm.plain hlook side]
  alike := by
    rw [spans_ofMembers]
    refine .anyOf ?_
    rw [List.forall₂_map_left_iff]
    exact forall₂_imp_of_mem (fun t ht m hm => hm.alike.mono
      (fun hf => byLook_ofMembers .front hf t ht)
      (fun hb => byLook_ofMembers .back hb t ht)) h

/-- A tree in front of others that come one after the other. -/
theorem ofParts_cons {u : Tree} {parts : List Tree} {n : Matcher} (ht : Realizes look t m)
    (hu : Realizes look (.ofParts (u :: parts)) n) (hbuilt : Built (.ofParts (t :: u :: parts)))
    (hback : t.pins.back.inSome = false ∧ t.pins.back.byLook = false)
    (hfront : u.pins.front.inSome = false ∧ u.pins.front.byLook = false) :
    Realizes look (.ofParts (t :: u :: parts)) (m * n) where
  built := hbuilt
  plain hlook side := by
    cases side with
    | front => exact ht.plain hlook .front
    | back => exact hu.plain hlook .back
  alike := by
    have hrest : (Tree.ofParts (u :: parts)).pins.front = u.pins.front := rfl
    rw [spans_ofParts_cons (fun d hd => ht.built.on_eq_false .back hback.1 hd)
      (fun d hd => hu.built.on_eq_false .front hfront.1 hd)]
    have halike := ht.alike
    have halike' := hu.alike
    rw [hback.2] at halike
    rw [hrest, hfront.2] at halike'
    exact halike.mul halike'

/-- Trees one after the other, each one placed where its pins allow it, realize matchers one after
the other. The last part stands alone; in front of others the checks exclude pins on the inner
sides. -/
theorem ofParts {parts : List (Nat × Tree)} {ms : List Matcher}
    (hplace : checkPlacement true parts = .ok ())
    (h : List.Forall₂ (fun part m => Realizes look part.2 m) parts ms) :
    Realizes look (.ofParts (parts.map Prod.snd)) ms.prod := by
  induction h with
  | nil => exact .empty look
  | @cons part m rest ms hm hrest ih =>
    obtain ⟨-, hback, hbehind⟩ := of_checkPlacement hplace
    have ih := ih (checkPlacement_of_behind hbehind)
    have hbuilt : ∀ p ∈ part :: rest, Built p.2 := by
      refine List.forall_mem_cons.mpr ⟨hm.built, fun p hp => ?_⟩
      obtain ⟨m, -, hp⟩ := exists_right_of_mem hrest hp
      exact hp.built
    cases hrest with
    | nil =>
      have hpins : (Tree.ofParts [part.2]).pins = part.2.pins := rfl
      refine ⟨.ofParts hplace hbuilt, hm.plain, ?_⟩
      rw [List.prod_singleton, List.map_cons, List.map_nil, spans_ofParts_singleton, hpins]
      exact hm.alike
    | cons _ _ =>
      obtain ⟨hfront, -, -⟩ := of_checkPlacement hbehind
      exact ofParts_cons hm ih (.ofParts hplace hbuilt) (hback (List.cons_ne_nil _ _)) (hfront rfl)

/-! ## Repetition -/

theorem byLook_repeated (atom : Tree) (occurs : Extent) (side : Side) :
    ((Pattern.repeated atom occurs).pins.on side).byLook = (atom.pins.on side).byLook := by
  rw [pins_repeated]
  split
  · rw [Pins.on_loosen]
    rfl
  · rfl

/-- An atom with a quantifier realizes that many matches of what the atom realizes. More than one
occurrence goes without lookarounds, so the matchers are the same. -/
theorem repeated {atom : Tree} (h : Realizes look atom m) {occurs limited : Extent}
    {position : Nat} (ho : occurs.least < unbounded)
    (hlimited : limitRepeat atom.pins occurs position = .ok limited) :
    Realizes look (Pattern.repeated atom limited) (.times {n | occurs.Admits n} m) where
  built := .repeated h.built ho hlimited
  plain hlook side := by
    rw [byLook_repeated]
    exact h.plain hlook side
  alike := by
    have hl := limited_of_limitRepeat hlimited
    rw [h.built.spans_repeated hl]
    have hfront := byLook_repeated atom limited .front
    have hback := byLook_repeated atom limited .back
    simp only [Pins.on] at hfront hback
    rw [hfront, hback]
    have hexact : (∀ side, (atom.pins.on side).byLook = false) → atom.spans = m := by
      intro hlook
      have halike := h.alike
      rw [show atom.pins.front.byLook = false from hlook .front,
        show atom.pins.back.byLook = false from hlook .back] at halike
      exact halike.eq
    cases hl with
    | few hmost =>
      apply h.alike.times
      intro n hn
      rcases hn.2 with hn | hn
      · rw [hn] at hmost
        exact absurd hmost (by decide)
      · exact hn.trans hmost
    | free hlook _ =>
      rw [hexact hlook]
      exact .refl _
    | optional side hlook _ _ _ =>
      rw [hexact hlook]
      exact .refl _
    | once side hlook _ _ _ =>
      rw [hexact hlook]
      exact .refl _

end Realizes

end Exemplar.Pattern
