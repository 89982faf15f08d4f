import Exemplar.Proofs.Complement.Leading
import Exemplar.Proofs.Complement.Steps
import Exemplar.Proofs.Pinning

/-!
# What complements describe holds no match

A string that a complement describes has no string of the tree in it. Either it is made of
characters that cannot begin such a string, or it is shorter than any of them. What is used of a
match is only that the tree describes it, and that it is the whole string where the tree describes
the empty string.

## Main definitions

* `Tree.HoldsMatch`: a string that a tree describes stands in another string

## Main results

* `Tree.Complement.disjoint`: what a complement describes holds no match
* `Tree.exists_complement`: where no match is empty, there is a complement
-/

namespace Exemplar

namespace Tree

variable {alphabet : Alphabet} {t r : Tree} {s w : List Char}

/-- The string `s` holds the match `w`: the tree describes `w`, and `w` is all of `s` if the tree
describes the empty string. -/
structure HoldsMatch (t : Tree) (s w : List Char) : Prop where
  mem : w ∈ t.language .accepted
  infix_of : w <:+: s
  eq_of_isNullable : t.isNullable = true → w = s

/-- A string without a character that can begin a match holds no match, unless it is empty. A match
without characters would be the whole string. -/
theorem HoldsMatch.exists_begins (h : t.HoldsMatch s w) (hs : s ≠ []) :
    ∃ c ∈ s, Begins .accepted t.leading c := by
  have hw : w ≠ [] := by
    rintro rfl
    exact hs (h.eq_of_isNullable (isNullable_of_mem h.mem)).symm
  obtain ⟨c, v, rfl⟩ := List.exists_cons_of_ne_nil hw
  exact ⟨c, h.infix_of.subset List.mem_cons_self, begins_leading_of_mem h.mem⟩

theorem HoldsMatch.least_le (h : t.HoldsMatch s w) : t.length.least ≤ s.length :=
  (length_admits t h.mem).1.trans h.infix_of.length_le

theorem mem_language_ofClass {cls : CharClass} {occurs : Extent} {M : Meaning} :
    w ∈ ((ofClass cls).withOccurs occurs).language M ↔
      occurs.Admits w.length ∧ ∀ c ∈ w, c ∈ M cls := mem_language_leaf

theorem not_holdsMatch_anyText (hleading : t.leading = [])
    (hs : s ∈ anyText.language (.drawn alphabet)) : ¬ t.HoldsMatch s w := by
  intro h
  obtain ⟨hlen, -⟩ := mem_language_ofClass.mp hs
  have hpos : 0 < (Extent.atLeast 1).least := by decide
  obtain ⟨c, -, l, hl, -⟩ := h.exists_begins (List.ne_nil_of_length_pos (hpos.trans_le hlen.1))
  rw [hleading] at hl
  cases hl

/-- Strings of characters that cannot begin a match hold none. -/
theorem not_holdsMatch_wrongBeginning (hr : t.wrongBeginning? alphabet = some r)
    (hs : s ∈ r.language (.drawn alphabet)) : ¬ t.HoldsMatch s w := by
  intro h
  unfold wrongBeginning? at hr
  dsimp only at hr
  split at hr
  · cases hr
  obtain rfl := Option.some.inj hr
  obtain ⟨hlen, hchars⟩ := mem_language_ofClass.mp hs
  have hpos : 0 < s.length := by
    have hleast := hlen.1
    simp only [Extent.atLeast, cappedAdd, unbounded] at hleast
    split at hleast <;> omega
  obtain ⟨c, hc, hbegins⟩ := h.exists_begins (List.ne_nil_of_length_pos hpos)
  have hdrawn := Meaning.mem_drawn.mp (hchars c hc)
  rw [CharClass.resolve] at hdrawn
  exact not_begins_of_mem_mismatches (CharSet.mem_of_mem_sample hdrawn) hbegins

/-- Strings of the derivation of short strings are shorter than the shortest match, whether it has
characters to offer or not. -/
theorem not_holdsMatch_tooShort (hleast : 0 < t.length.least)
    (hs : s ∈ (t.tooShort alphabet).language (.drawn alphabet)) : ¬ t.HoldsMatch s w := by
  intro h
  have hle := h.least_le
  unfold tooShort at hs
  dsimp only at hs
  split at hs
  · have hzero : empty.length = .zero := by decide
    have hlen := length_admits empty hs
    rw [hzero, Extent.admits_zero] at hlen
    omega
  · obtain ⟨hlen, -⟩ := mem_language_ofClass.mp hs
    have := t.length.least_le_most
    have := t.length.most_le_unbounded
    have := hlen.2
    simp only [Extent.atMost] at this
    omega

/-- What a complement describes holds no match: it is one of the derivations, or a choice between
them, and none of these holds a match. -/
theorem Complement.disjoint (h : Complement alphabet t r) (hs : s ∈ r.language (.drawn alphabet)) :
    ¬ t.HoldsMatch s w := by
  have hderivation {u : Tree} (hu : u ∈ t.derivations alphabet)
      (hs : s ∈ u.language (.drawn alphabet)) : ¬ t.HoldsMatch s w := by
    rcases of_mem_derivations hu with hwrong | ⟨hleast, rfl⟩
    · exact not_holdsMatch_wrongBeginning hwrong hs
    · exact not_holdsMatch_tooShort hleast hs
  cases h with
  | text _ hleading => exact not_holdsMatch_anyText hleading hs
  | derivation hmem => exact hderivation hmem hs
  | derivations =>
    obtain ⟨u, hu, hs⟩ := mem_language_ofMembers.mp hs
    exact hderivation hu hs

/-! ## Existence -/

theorem nil_mem_tooShort {M : Meaning} : [] ∈ (t.tooShort alphabet).language M := by
  unfold tooShort
  dsimp only
  split
  · exact mem_language.mpr ⟨.join [], derives_ofParts.mpr ⟨[], .nil, rfl⟩, rfl⟩
  · have hlen : (Extent.atMost (t.length.least - 1)).Admits 0 := by
      simp [Extent.Admits, Extent.atMost]
    exact mem_language_ofClass.mpr ⟨hlen, by simp⟩

/-- Where every match has a character, there is a complement, and it describes the empty string. It
is the derivation of short strings that applies. -/
theorem exists_complement (hnull : t.isNullable = false) (hleast : 0 < t.length.least)
    (anchored : Bool) :
    ∃ r, t.complement? alphabet anchored = some r ∧ [] ∈ r.language (.drawn alphabet) := by
  have hmem : t.tooShort alphabet ∈ t.derivations alphabet := by
    rw [derivations, if_pos hleast]
    exact List.mem_append_right _ (List.mem_singleton.mpr rfl)
  unfold complement?
  rw [hnull, Bool.false_and, Bool.false_and, if_neg Bool.false_ne_true, if_neg Bool.false_ne_true]
  split
  next hnone =>
    rw [hnone] at hmem
    cases hmem
  next tree hone =>
    rw [hone, List.mem_singleton] at hmem
    exact ⟨_, rfl, mem_language_pinned.mpr (hmem ▸ nil_mem_tooShort)⟩
  next =>
    refine ⟨_, rfl, mem_language_pinned.mpr (mem_language_ofMembers.mpr ⟨_, hmem, ?_⟩)⟩
    exact nil_mem_tooShort

end Tree

end Exemplar
