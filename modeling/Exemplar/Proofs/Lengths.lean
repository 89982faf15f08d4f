import Exemplar.Proofs.Emission.Exact
import Exemplar.Proofs.Padding.Regular
import Mathlib.Data.ENat.Lattice
import Mathlib.Order.CompletePartialOrder

/-!
# Lengths are exact

The lengths of a tree are inferred from those of its children by sums and products that are kept at
`unbounded`. They bound the strings that the tree describes, whatever the tree is. Where there are
characters for every leaf that may occur, the bounds are also reached: the lower one by the shortest
string, and the upper one by the longest if there is a longest one. A bound that was kept at
`unbounded` is reached by a string that is at least so long.

Kept at `unbounded` or not makes no difference to whether a bound is reached: the children are
repeated and put together just as their bounds are multiplied and summed, and to keep the factors of
a product at `unbounded`, or the terms of a sum, is to keep the result there.

## Main definitions

* `Attains l n`: some string of the language is `n` long, but for what is above `unbounded`
* `Tree.HasChars`: a leaf that may occur has characters
* `Tree.HasMembers`: a choice has members

## Main results

* `Tree.attains_length`: a tree attains both ends of its lengths
* `Generator.Arises.hasMembers`: the choices of generators have members
* `Generator.length_exact`: the lengths of a generator go from the length of its shortest string to
  the supremum of the lengths
-/

namespace Exemplar

/-- Some string of the language is `n` long, where lengths are kept at `unbounded`. -/
def Attains (l : Language Char) (n : Nat) : Prop := ∃ w ∈ l, min w.length unbounded = n

/-! ## Putting strings together -/

/-- An allowed number of repetitions of a string whose length is attained attains the product. -/
theorem attains_repeated {occurs : Extent} {l : Language Char} {n k : Nat}
    (hn : occurs.Admits n) (h : Attains l k) : Attains (occurs.repeated l) (cappedMul n k) := by
  obtain ⟨w, hw, rfl⟩ := h
  refine ⟨(List.replicate n w).flatten, Extent.mem_repeated.mpr ⟨_, ?_, ?_, rfl⟩, ?_⟩
  · rwa [List.length_replicate]
  · intro x hx
    rwa [List.eq_of_mem_replicate hx]
  · rw [Extent.cappedMul_min, List.length_flatten, List.map_replicate, List.sum_replicate, smul_eq_mul]
    rfl

namespace Extent

theorem admits_least (e : Extent) : e.Admits e.least := ⟨Nat.le_refl _, .inr e.least_le_most⟩

theorem admits_most (e : Extent) : e.Admits e.most := ⟨e.least_le_most, .inr (Nat.le_refl _)⟩

/-- The least count of a hull is that of one of the extents. -/
theorem exists_least_hullAll {es : List Extent} (h : es ≠ []) :
    ∃ e ∈ es, (hullAll es).least = e.least := by
  induction es with
  | nil => exact absurd rfl h
  | cons e es ih =>
    cases es with
    | nil => exact ⟨e, List.mem_singleton_self e, rfl⟩
    | cons e' es =>
      obtain ⟨b, hb, hbl⟩ := ih nofun
      have hhull : (hullAll (e :: e' :: es)).least = min e.least b.least := by rw [← hbl]; rfl
      rcases Nat.le_total e.least b.least with hle | hle
      · exact ⟨e, List.mem_cons_self, hhull.trans (Nat.min_eq_left hle)⟩
      · exact ⟨b, List.mem_cons_of_mem _ hb, hhull.trans (Nat.min_eq_right hle)⟩

/-- The greatest count of a hull is that of one of the extents. -/
theorem exists_most_hullAll {es : List Extent} (h : es ≠ []) :
    ∃ e ∈ es, (hullAll es).most = e.most := by
  induction es with
  | nil => exact absurd rfl h
  | cons e es ih =>
    cases es with
    | nil => exact ⟨e, List.mem_singleton_self e, rfl⟩
    | cons e' es =>
      obtain ⟨b, hb, hbm⟩ := ih nofun
      have hhull : (hullAll (e :: e' :: es)).most = max e.most b.most := by rw [← hbm]; rfl
      rcases Nat.le_total e.most b.most with hle | hle
      · exact ⟨b, List.mem_cons_of_mem _ hb, hhull.trans (Nat.max_eq_right hle)⟩
      · exact ⟨e, List.mem_cons_self, hhull.trans (Nat.max_eq_left hle)⟩

end Extent

namespace Tree

variable {M : Meaning} {t : Tree}

/-- Parts that attain a bound each attain the sum of the bounds. -/
theorem attains_parts {ts : List Tree} {bound : Extent → Nat}
    (h : ∀ t ∈ ts, Attains (t.language M) (bound t.length)) :
    Attains (languageOfParts M ts) (min ((lengths ts).map bound).sum unbounded) := by
  induction ts with
  | nil => exact ⟨[], Language.nil_mem_one, rfl⟩
  | cons t ts ih =>
    rw [List.forall_mem_cons] at h
    obtain ⟨w, hw, hlen⟩ := h.1
    obtain ⟨v, hv, hlens⟩ := ih h.2
    refine ⟨w ++ v, Language.append_mem_mul hw hv, ?_⟩
    rw [lengths, List.map_cons, List.sum_cons, List.length_append, ← hlen]
    omega

/-- Members attain what one of them does. -/
theorem attains_members {ts : List Tree} {bound : Extent → Nat} {e : Extent}
    (h : ∀ t ∈ ts, Attains (t.language M) (bound t.length)) (he : e ∈ lengths ts) :
    Attains (languageOfMembers M ts) (bound e) := by
  rw [lengths_eq_map] at he
  obtain ⟨t, ht, rfl⟩ := List.mem_map.mp he
  obtain ⟨w, hw, hlen⟩ := h t ht
  exact ⟨w, mem_languageOfMembers.mpr ⟨t, ht, hw⟩, hlen⟩

/-! ## Trees -/

/-- A leaf that may occur has characters. -/
def HasChars (M : Meaning) : Tree → Prop
  | leaf cls m => 0 < m.occurs.most → (M cls).Nonempty
  | sequence _ _ | choice _ _ => True

instance (alphabet : Alphabet) : DecidablePred (HasChars (.drawn alphabet)) := fun
  | leaf cls m => decidable_of_iff (0 < m.occurs.most → (cls.resolve alphabet).isEmpty = false)
      (imp_congr_right fun _ => CharSet.isEmpty_eq_false_iff)
  | sequence _ _ | choice _ _ => .isTrue trivial

/-- A choice has members. -/
def HasMembers : Tree → Prop
  | choice members _ => members ≠ []
  | leaf _ _ | sequence _ _ => True

/-- A leaf with characters attains every number of occurrences that it allows. -/
theorem attains_leaf {cls : CharClass} {m : Mark} (h : (leaf cls m).HasChars M) {n : Nat}
    (hn : m.occurs.Admits n) (hle : n ≤ m.occurs.most) :
    Attains ((leaf cls m).language M) n := by
  have hmin : min n unbounded = n := Nat.min_eq_left (hle.trans m.occurs.most_le_unbounded)
  rcases Nat.eq_zero_or_pos n with rfl | hpos
  · exact ⟨[], mem_language_leaf.mpr ⟨hn, by simp⟩, hmin⟩
  · obtain ⟨c, hc⟩ := h (hpos.trans_le hle)
    refine ⟨List.replicate n c, mem_language_leaf.mpr ⟨?_, fun d hd => ?_⟩, ?_⟩
    · rwa [List.length_replicate]
    · rwa [List.eq_of_mem_replicate hd]
    · rw [List.length_replicate, hmin]

/-- Where leaves have characters and choices have members, a tree attains both ends of its lengths.
The least number of occurrences of shortest strings is the shortest, and likewise the longest. -/
theorem attains_length (hchars : t.Every (HasChars M)) (hmembers : t.Every HasMembers) :
    Attains (t.language M) t.length.least ∧ Attains (t.language M) t.length.most := by
  induction t with
  | leaf cls m =>
    have hleaf := (every_iff.mp hchars).1
    rw [length_leaf]
    exact ⟨attains_leaf hleaf m.occurs.admits_least m.occurs.least_le_most,
      attains_leaf hleaf m.occurs.admits_most (Nat.le_refl _)⟩
  | sequence parts m ih =>
    replace ih := fun t ht =>
      ih t ht ((every_iff.mp hchars).2 t ht) ((every_iff.mp hmembers).2 t ht)
    rw [language, length, Extent.least_mul, Extent.most_mul, Extent.least_sumAll,
      Extent.most_sumAll]
    exact ⟨attains_repeated m.occurs.admits_least (attains_parts fun t ht => (ih t ht).1),
      attains_repeated m.occurs.admits_most (attains_parts fun t ht => (ih t ht).2)⟩
  | choice members m ih =>
    replace ih := fun t ht =>
      ih t ht ((every_iff.mp hchars).2 t ht) ((every_iff.mp hmembers).2 t ht)
    have hne : lengths members ≠ [] := by
      rw [lengths_eq_map, ne_eq, List.map_eq_nil_iff]
      exact (every_iff.mp hmembers).1
    obtain ⟨shortest, hshortest, hleast⟩ := Extent.exists_least_hullAll hne
    obtain ⟨longest, hlongest, hmost⟩ := Extent.exists_most_hullAll hne
    rw [language, length, Extent.least_mul, Extent.most_mul, hleast, hmost]
    exact ⟨attains_repeated m.occurs.admits_least
        (attains_members (fun t ht => (ih t ht).1) hshortest),
      attains_repeated m.occurs.admits_most
        (attains_members (fun t ht => (ih t ht).2) hlongest)⟩

/-! ## Choices have members -/

theorem Every.hasMembers_of_regular (h : t.Every IsRegular) : t.Every HasMembers := by
  refine h.imp fun u hu _ => ?_
  cases u with
  | choice members m =>
    rintro rfl
    exact absurd (show 2 ≤ 0 from hu.shape) (by decide)
  | leaf => trivial
  | sequence => trivial

theorem every_hasMembers_leaf (cls : CharClass) (m : Mark) : (leaf cls m).Every HasMembers :=
  .node _ trivial (by simp [children])

variable {alphabet : Alphabet} {r : Tree}

theorem hasMembers_of_mem_derivations (h : r ∈ t.derivations alphabet) : r.Every HasMembers := by
  rcases leaf_or_empty_of_mem_derivations h with ⟨cls, m, rfl⟩ | rfl
  · exact every_hasMembers_leaf cls m
  · exact .node _ trivial (by simp [empty, ofParts, children])

/-- The choices of a complement have members. -/
theorem hasMembers_of_complement? {anchored : Bool}
    (h : t.complement? alphabet anchored = some r) : r.Every HasMembers := by
  obtain ⟨-, tree, htree, rfl⟩ := of_complement? h
  have hpinned {u : Tree} (hu : u.Every HasMembers) : (u.pinned .both).Every HasMembers :=
    hu.withMark (by have := (every_iff.mp hu).1; cases u <;> exact this)
  refine hpinned ?_
  cases htree with
  | text => exact every_hasMembers_leaf _ _
  | derivation hmem => exact hasMembers_of_mem_derivations hmem
  | derivations hne => exact .node _ hne fun _ hu => hasMembers_of_mem_derivations hu

end Tree

/-! ## Generators -/

section Ends

variable {l : Language Char} {e : Extent}

/-- A lower bound that is attained is the length of a shortest string. -/
theorem isLeast_of_attains (h : ∀ w ∈ l, e.Admits w.length) (hl : Attains l e.least) :
    ∃ n, IsLeast {k | ∃ w ∈ l, w.length = k} n ∧ e.least = min n unbounded := by
  obtain ⟨w, hw, hlen⟩ := hl
  have hmem := Nat.sInf_mem (s := {k | ∃ w ∈ l, w.length = k}) ⟨_, w, hw, rfl⟩
  refine ⟨_, ⟨hmem, fun k hk => Nat.sInf_le hk⟩, ?_⟩
  obtain ⟨v, hv, hshortest⟩ := hmem
  have hle : sInf {k | ∃ w ∈ l, w.length = k} ≤ w.length := Nat.sInf_le ⟨w, hw, rfl⟩
  have hbound := (h v hv).1
  omega

/-- An upper bound that is attained is the supremum of the lengths. -/
theorem most_eq_iSup (h : ∀ w ∈ l, e.Admits w.length) (hm : Attains l e.most) :
    (e.most : ℕ∞) = min (⨆ w ∈ l, (w.length : ℕ∞)) unbounded := by
  obtain ⟨w, hw, hlen⟩ := hm
  refine le_antisymm (le_min ?_ (by exact_mod_cast e.most_le_unbounded)) ?_
  · calc (e.most : ℕ∞) ≤ w.length := by exact_mod_cast hlen ▸ Nat.min_le_left ..
      _ ≤ ⨆ w ∈ l, (w.length : ℕ∞) := le_iSup₂_of_le w hw le_rfl
  · by_cases hopen : e.most = unbounded
    · exact hopen ▸ min_le_right _ _
    · refine (min_le_left _ _).trans (iSup₂_le fun v hv => ?_)
      exact_mod_cast (h v hv).2.resolve_left hopen

end Ends

namespace Generator

variable {g : Generator}

/-- The choices in the tree of a generator have members. -/
theorem Arises.hasMembers (h : g.Arises) : g.root.Every Tree.HasMembers := by
  cases h with
  | compiled hc =>
    obtain ⟨hparse, hroot, -, -⟩ := of_compile hc
    exact (regular_of_completed hparse hroot).hasMembers_of_regular
  | complement _ hc =>
    obtain ⟨root, hroot, rfl⟩ := Option.map_eq_some_iff.mp hc
    exact Tree.hasMembers_of_complement? hroot

/-- The lengths of a generator bound those of its strings. If the leaves that may occur have
characters, they go from the length of the shortest string to the supremum of the lengths, but for
what is above `unbounded`. -/
theorem length_exact (hg : g.Arises) :
    let l := g.root.language (.drawn g.options.alphabet)
    (∀ w ∈ l, g.length.Admits w.length) ∧
      (g.root.Every (Tree.HasChars (.drawn g.options.alphabet)) →
        (∃ n, IsLeast {k | ∃ w ∈ l, w.length = k} n ∧ g.length.least = min n unbounded) ∧
          (g.length.most : ℕ∞) = min (⨆ w ∈ l, (w.length : ℕ∞)) unbounded) := by
  intro l
  have hbounds : ∀ w ∈ l, g.length.Admits w.length := fun w hw => g.root.length_admits hw
  refine ⟨hbounds, fun hchars => ?_⟩
  obtain ⟨hleast, hmost⟩ := Tree.attains_length hchars hg.hasMembers
  exact ⟨isLeast_of_attains hbounds hleast, most_eq_iSup hbounds hmost⟩

/-- The strings of `^(ab|c){2,3}$` are from 2 to 6 characters long. -/
theorem length_exact_repeated : ∃ c, compile {} "^(ab|c){2,3}$" = .ok c ∧
    let l := c.generator.root.language (.drawn c.generator.options.alphabet)
    IsLeast {k | ∃ w ∈ l, w.length = k} 2 ∧ (6 : ℕ∞) = min (⨆ w ∈ l, (w.length : ℕ∞)) unbounded := by
  obtain ⟨c, hc, htest⟩ := exists_of_compile
    (show ((compile {} "^(ab|c){2,3}$").toOption.any fun c =>
      decide (c.generator.root.Every (Tree.HasChars (.drawn c.generator.options.alphabet)) ∧
        c.generator.length.least = 2 ∧ c.generator.length.most = 6)) = true by decide +kernel)
  obtain ⟨hchars, hleast, hmost⟩ := of_decide_eq_true htest
  obtain ⟨⟨n, hn, hshortest⟩, hlongest⟩ := (length_exact (.compiled hc)).2 hchars
  have hn2 : n = 2 := by
    rw [hleast, unbounded] at hshortest
    omega
  rw [hmost] at hlongest
  exact ⟨c, hc, hn2 ▸ hn, hlongest⟩

end Generator

end Exemplar
