import Exemplar.Proofs.Generator
import Exemplar.Proofs.Matching.Realizes
import Exemplar.Proofs.Padding.Language

/-!
# Strings with a match

A string has a match when something matches somewhere in it, or all of it where the whole string has
to match. The matches of a pattern are those of its tree, which are strings of the completed tree:
what the completed tree describes has a match, and a match is described by the completed tree on its
own, without any text around it.

## Main definitions

* `Matcher.MatchesIn`: there is a match in a string

## Main results

* `Pattern.Realizes.matchesIn_iff`: a tree and the matcher that it realizes match in the same
  strings
* `Tree.matchesIn_of_mem_completed`, `Tree.exists_mem_completed`: matches and the completed tree
-/

namespace Exemplar

/-- There is a match in the string; if `whole` is set, one over the whole string. -/
def Matcher.MatchesIn (whole : Bool) (m : Matcher) (s : List Char) : Prop :=
  ∃ i j, m.Matches s i j ∧ (whole = true → i = 0 ∧ j = s.length)

open Matcher

variable {whole : Bool} {s : List Char}

theorem Matcher.Approx.matchesIn {front back : Bool} {a b : Matcher} (h : Approx front back a b)
    (hf : whole = true → front = false) (hb : whole = true → back = false)
    (hm : a.MatchesIn whole s) : b.MatchesIn whole s := by
  obtain ⟨i, j, ha, hwhole⟩ := hm
  obtain ⟨i', j', hb', hi, hj⟩ := h s i j ha
  refine ⟨i', j', hb', fun hw => ?_⟩
  rw [hi (hf hw), hj (hb hw)]
  exact hwhole hw

/-- A tree matches in the same strings as the matcher that it realizes, since nothing looks around
itself where the whole string has to match. -/
theorem Pattern.Realizes.matchesIn_iff {look : Bool} {t : Tree} {m : Matcher}
    (h : Realizes look t m) (hlook : whole = true → look = false) :
    t.spans.MatchesIn whole s ↔ m.MatchesIn whole s := by
  have hf (hw : whole = true) : t.pins.front.byLook = false := h.plain (hlook hw) .front
  have hb (hw : whole = true) : t.pins.back.byLook = false := h.plain (hlook hw) .back
  exact ⟨h.alike.left.matchesIn hf hb, h.alike.right.matchesIn hf hb⟩

namespace Tree

variable {M : Meaning} {options : Options} {t r : Tree} {w : List Char}

/-- What the completed tree describes has a match of the tree in it. Where nothing is added to a
derivation of the tree, it is the whole string. -/
theorem matchesIn_of_mem_completed (ht : t.Every IsConsistent) (hr : t.completed options = .ok r)
    (hw : w ∈ r.language (.drawn options.alphabet)) : t.spans.MatchesIn options.whole w := by
  unfold completed at hr
  split at hr
  next hwhole =>
    obtain rfl := Except.ok.inj hr
    obtain ⟨d, hd, rfl⟩ := mem_language.mp (mem_language_pinned.mp hw)
    have hd' : t.Derives .accepted d := hd.mono (Meaning.drawn_subset_accepted _)
    refine ⟨0, d.text.length, ⟨d, hd', ?_⟩, fun _ => ⟨rfl, rfl⟩⟩
    exact ⟨word_matches.mpr ⟨[], [], by simp⟩, fun _ => rfl, fun _ => rfl⟩
  next hwhole =>
    obtain ⟨u, d, z, hd, rfl, -, -, hfront, hback⟩ := (mem_language_padBoth ht hr).mp hw
    have hd' : t.Derives .accepted d := hd.mono (Meaning.drawn_subset_accepted _)
    refine ⟨u.length, u.length + d.text.length, ⟨d, hd', ?_⟩, fun h => absurd h hwhole⟩
    refine ⟨word_matches.mpr ⟨u, z, rfl, rfl, rfl⟩, ?_, ?_⟩
    · intro h
      rw [hfront h, List.length_nil]
    · intro h
      simp [hback h]

/-- A match of the tree is described by the completed tree. Where the tree is pinned at both sides,
or the whole string has to match, nothing stands around the match. A match that is held at both ends
reaches from one end of the string to the other. -/
theorem exists_mem_completed (ht : t.Every IsConsistent) (hr : t.completed options = .ok r)
    (hm : t.spans.MatchesIn options.whole s) : ∃ w ∈ r.language .accepted, w <:+: s ∧
      ((options.whole || t.pins.isComplete) = true → w = s) := by
  obtain ⟨i, j, ⟨d, hd, hword, hfront, hback⟩, hwhole⟩ := hm
  obtain ⟨u, z, rfl, rfl, rfl⟩ := word_matches.mp hword
  refine ⟨d.text, ?_, ⟨u, z, rfl⟩, ?_⟩
  · unfold completed at hr
    split at hr
    · obtain rfl := Except.ok.inj hr
      exact mem_language_pinned.mpr (mem_language.mpr ⟨d, hd, rfl⟩)
    · exact (mem_language_padBoth ht hr).mpr ⟨[], d, [], hd, by simp, by simp, by simp,
        fun _ => rfl, fun _ => rfl⟩
  · intro hheld
    have hends : u.length = 0 ∧ u.length + d.text.length = (u ++ d.text ++ z).length := by
      rcases Bool.or_eq_true _ _ ▸ hheld with h | h
      · exact hwhole h
      · rw [Pins.isComplete, Bool.and_eq_true] at h
        have hfirst : d.on .front = true := hd.on_of_inAll h.1
        have hlast : d.on .back = true := hd.on_of_inAll h.2
        exact ⟨hfront hfirst, hback hlast⟩
    obtain ⟨hu, hz⟩ := hends
    obtain rfl := List.eq_nil_of_length_eq_zero hu
    obtain rfl : z = [] := by
      rw [List.length_append, List.length_append] at hz
      exact List.eq_nil_of_length_eq_zero (by omega)
    simp

end Tree

end Exemplar
