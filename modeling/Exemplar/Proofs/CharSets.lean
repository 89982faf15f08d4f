import Exemplar.CharSet.Lemmas
import Mathlib.Data.Set.Card

/-!
# Sets of characters as sets

A set of characters keeps its members in ascending order, whatever it was made by. So it is the same
as another one with the same members, and the place of a member is the number of members before it.
Every way to make a set yields the members that the operations on sets in general would yield. Where
these do not depend on an order, as for a sample, they are told by the places of the members.

## Main definitions

* `CharSet.Recipe`: all ways to make a set, at once or character by character
* `CharSet.Recipe.members`: the members that a set made in this way has to have
* `CharSet.sampled`: evenly spaced members

## Main results

* `CharSet.get?_eq_some_iff`: the member at a place
* `CharSet.mem_sample`: the members of a sample
* `CharSet.recipe_faithful`: a set is in order and has the members that it has to have
-/

namespace Exemplar.CharSet

variable {s t : CharSet} {c : Char}

/-! ## Members in order -/

/-- Two sets with the same members are the same. -/
theorem eq_of_mem_iff (h : ∀ c, c ∈ s ↔ c ∈ t) : s = t :=
  ext_toList (s.ascending.eq_of_mem_iff t.ascending h)

theorem compare_eq_iff : compare s t = .eq ↔ s = t := by
  change List.compareLex compare s.toList t.toList = .eq ↔ s = t
  rw [Std.LawfulEqCmp.compare_eq_iff_eq]
  exact ⟨ext_toList, congrArg toList⟩

theorem get?_eq_getElem? (s : CharSet) (i : ℕ) : s.get? i = s.toList[i]? :=
  Array.getElem?_toList.symm

theorem get?_eq_none_iff {i : ℕ} : s.get? i = none ↔ s.size ≤ i := Array.getElem?_eq_none_iff

/-- In a list in ascending order, as many members are less than the one at a place as come before
it. The first member is the least one, and the others are counted from it. -/
theorem ncard_lt_of_getElem? {l : List Char} (hl : l.Pairwise (· < ·)) {i : ℕ}
    (h : l[i]? = some c) : {d | d ∈ l ∧ d < c}.ncard = i := by
  induction l generalizing i with
  | nil => cases h
  | cons a l ih =>
    rw [List.pairwise_cons] at hl
    cases i with
    | zero =>
      obtain rfl : a = c := Option.some.inj h
      have hempty : {d | d ∈ a :: l ∧ d < a} = ∅ := by
        apply Set.eq_empty_of_forall_notMem
        rintro d ⟨hd, hlt⟩
        rcases List.mem_cons.mp hd with rfl | hd
        · exact Char.lt_irrefl _ hlt
        · exact Char.lt_asymm (hl.1 d hd) hlt
      rw [hempty, Set.ncard_empty]
    | succ i =>
      rw [List.getElem?_cons_succ] at h
      have hac : a < c := hl.1 c (List.mem_of_getElem? h)
      have hinsert : {d | d ∈ a :: l ∧ d < c} = Insert.insert a {d | d ∈ l ∧ d < c} := by
        ext d
        simp only [Set.mem_ofPred_eq, List.mem_cons, Set.mem_insert_iff]
        constructor
        · rintro ⟨rfl | hd, hlt⟩
          · exact .inl rfl
          · exact .inr ⟨hd, hlt⟩
        · rintro (rfl | ⟨hd, hlt⟩)
          · exact ⟨.inl rfl, hac⟩
          · exact ⟨.inr hd, hlt⟩
      have hfinite : {d | d ∈ l ∧ d < c}.Finite := l.finite_toSet.subset fun d hd => hd.1
      have hnew : a ∉ {d | d ∈ l ∧ d < c} := fun ha => Char.lt_irrefl a (hl.1 a ha.1)
      rw [hinsert, Set.ncard_insert_of_notMem hnew hfinite, ih hl.2 h]

/-- The place of a member is the number of members before it. -/
theorem get?_eq_some_iff {i : ℕ} :
    s.get? i = some c ↔ c ∈ s ∧ {d | d ∈ s ∧ d < c}.ncard = i := by
  rw [get?_eq_getElem?]
  constructor
  · intro h
    exact ⟨List.mem_of_getElem? h, ncard_lt_of_getElem? s.ascending h⟩
  · rintro ⟨hc, rfl⟩
    obtain ⟨j, hj⟩ := List.mem_iff_getElem?.mp (mem_iff.mp hc)
    have hplace := ncard_lt_of_getElem? s.ascending hj
    exact hplace ▸ hj

theorem size_eq_ncard (s : CharSet) : s.size = {c | c ∈ s}.ncard := by
  have hnodup : s.toList.Nodup := s.ascending.imp Char.ne_of_lt
  have hset : {c | c ∈ s} = (s.toList.toFinset : Set Char) := by
    ext c
    simp [mem_iff]
  rw [hset, Set.ncard_coe_finset, List.toFinset_card_of_nodup hnodup]
  rfl

/-! ## Samples -/

/-- All members if there are no more than `limit`, or else those at `limit` evenly spaced places
from the first one on. -/
def sampled (m : Set Char) (limit : ℕ) : Set Char :=
  {c | c ∈ m ∧ (m.ncard ≤ limit ∨
    ∃ i < limit, {d | d ∈ m ∧ d < c}.ncard = i * (m.ncard / limit))}

/-- Sampling a set leaves the members that sampling its members asks for. -/
theorem mem_sample {limit : ℕ} : c ∈ s.sample limit ↔ c ∈ sampled {c | c ∈ s} limit := by
  change _ ↔ c ∈ s ∧ ({c | c ∈ s}.ncard ≤ limit ∨
    ∃ i < limit, {d | d ∈ s ∧ d < c}.ncard = i * ({c | c ∈ s}.ncard / limit))
  rw [← size_eq_ncard]
  unfold sample
  by_cases hsize : s.size ≤ limit
  · rw [dif_pos hsize]
    simp [hsize]
  · rw [dif_neg hsize, mem_iff, toList_ofAscending, List.mem_filterMap]
    simp only [List.mem_range, get?_eq_some_iff, hsize, false_or]
    constructor
    · rintro ⟨i, hi, hc, hplace⟩
      exact ⟨hc, i, hi, hplace⟩
    · rintro ⟨hc, i, hi, hplace⟩
      exact ⟨i, hi, hc, hplace⟩

/-! ## Ways to make a set -/

/-- Whether characters are still being added. -/
inductive Stage where
  | growing
  | frozen

/-- A way to make a set: at once, character by character, or from other sets. -/
inductive Recipe : Stage → Type where
  | empty : Recipe .frozen
  | range (lo hi : Char) : Recipe .frozen
  | ofList (l : List Char) : Recipe .frozen
  | union (r q : Recipe .frozen) : Recipe .frozen
  | inter (r q : Recipe .frozen) : Recipe .frozen
  | diff (r q : Recipe .frozen) : Recipe .frozen
  | sample (r : Recipe .frozen) (limit : ℕ) : Recipe .frozen
  | new : Recipe .growing
  | insert (b : Recipe .growing) (c : Char) : Recipe .growing
  | insertRange (b : Recipe .growing) (lo hi : Char) : Recipe .growing
  | insertSet (b : Recipe .growing) (r : Recipe .frozen) : Recipe .growing
  | build (b : Recipe .growing) : Recipe .frozen

namespace Recipe

variable {stage stage' : Stage}

/-- The set that is made. One that is still growing is kept in the same way. -/
def set {stage : Stage} : Recipe stage → CharSet
  | empty => ∅
  | range lo hi => .range lo hi
  | ofList l => .ofList l
  | union r q => r.set.union q.set
  | inter r q => r.set.inter q.set
  | diff r q => r.set.diff q.set
  | sample r limit => r.set.sample limit
  | new => ∅
  | insert b c => b.set.insert c
  | insertRange b lo hi => b.set.union (.range lo hi)
  | insertSet b r => b.set.union r.set
  | build b => b.set

/-- The members that the set has to have. -/
def members {stage : Stage} : Recipe stage → Set Char
  | empty => ∅
  | range lo hi => {c | lo ≤ c ∧ c ≤ hi}
  | ofList l => {c | c ∈ l}
  | union r q => r.members ∪ q.members
  | inter r q => r.members ∩ q.members
  | diff r q => r.members \ q.members
  | sample r limit => sampled r.members limit
  | new => ∅
  | insert b c => b.members ∪ {c}
  | insertRange b lo hi => b.members ∪ {c | lo ≤ c ∧ c ≤ hi}
  | insertSet b r => b.members ∪ r.members
  | build b => b.members

/-- The set that a history leads to has the members that the history asks for. -/
theorem mem_set (r : Recipe stage) : c ∈ r.set ↔ c ∈ r.members := by
  induction r generalizing c with
  | empty | new => exact iff_of_false not_mem_empty (Set.notMem_empty c)
  | range lo hi => exact mem_range
  | ofList l => exact mem_ofList
  | union r q ihr ihq | insertSet r q ihr ihq => exact mem_union.trans (or_congr ihr ihq)
  | inter r q ihr ihq => exact mem_inter.trans (and_congr ihr ihq)
  | diff r q ihr ihq => exact mem_diff.trans (and_congr ihr (not_congr ihq))
  | sample r limit ih =>
    have hset : {c | c ∈ r.set} = r.members := Set.ext fun _ => ih
    rw [set, members, mem_sample, hset]
  | insert b c ih => exact mem_insert.trans (or_congr ih Iff.rfl)
  | insertRange b lo hi ih => exact mem_union.trans (or_congr ih mem_range)
  | build b ih => exact ih

/-- Histories that ask for the same members lead to the same set. -/
theorem set_eq_iff {r : Recipe stage} {q : Recipe stage'} :
    r.set = q.set ↔ r.members = q.members := by
  constructor
  · intro h
    ext c
    rw [← mem_set, ← mem_set, h]
  · intro h
    apply eq_of_mem_iff
    intro c
    rw [mem_set, mem_set, h]

end Recipe

/-- No character has the code point of a surrogate. -/
theorem not_surrogate (c : Char) : ¬ (0xD800 ≤ c.toNat ∧ c.toNat ≤ 0xDFFF) := by
  have h : c.toNat.isValidChar := c.valid
  simp only [Nat.isValidChar] at h
  omega

/-- However a set is made, its members are in ascending order, each once, and none is a surrogate.
They are those that it has to have, and bisection finds just them. The place of a member is the
number of members before it, and there are no places beyond the number of members. Two sets compare
equal just if they have to have the same members. -/
theorem recipe_faithful {stage : Stage} (r : Recipe stage) :
    r.set.toList.Pairwise (fun c d => c.toNat < d.toNat) ∧
    (∀ c ∈ r.set.toList, ¬ (0xD800 ≤ c.toNat ∧ c.toNat ≤ 0xDFFF)) ∧
    (∀ c, (c ∈ r.set.toList ↔ c ∈ r.members) ∧ (r.set.contains c = true ↔ c ∈ r.set.toList)) ∧
    (∀ i, (r.set.get? i = none ↔ r.set.size ≤ i) ∧
      ∀ c, r.set.get? i = some c ↔ c ∈ r.members ∧ {d | d ∈ r.members ∧ d < c}.ncard = i) ∧
    r.set.size = r.members.ncard ∧
    ∀ {stage' : Stage} (q : Recipe stage'),
      (compare r.set q.set = .eq ↔ r.members = q.members) ∧
        (r.set = q.set ↔ r.members = q.members) := by
  have hmem : ∀ c, c ∈ r.set.toList ↔ c ∈ r.members := fun c => r.mem_set
  refine ⟨?_, fun c _ => not_surrogate c, fun c => ⟨hmem c, contains_iff⟩, ?_, ?_, ?_⟩
  · apply r.set.ascending.imp
    intro c d h
    rwa [Char.lt_def, UInt32.lt_iff_toNat_lt] at h
  · intro i
    refine ⟨get?_eq_none_iff, fun c => ?_⟩
    rw [get?_eq_some_iff]
    simp only [mem_iff, hmem]
  · rw [size_eq_ncard]
    simp only [mem_iff, hmem]
    rfl
  · intro stage' q
    exact ⟨compare_eq_iff.trans Recipe.set_eq_iff, Recipe.set_eq_iff⟩

end Exemplar.CharSet
