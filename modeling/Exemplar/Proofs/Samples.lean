import Exemplar.CharSet.Tables
import Exemplar.Proofs.CharSets

/-!
# Samples of sets of characters

A sample of a set takes members at a fixed distance from each other, from the first one on. The
distance is a quotient that is rounded down, so all the places are there: a sample never has fewer
members than it may have. It does not matter whether the members are found by their places, or by a
walk along all members that takes one and passes over those up to the next.

## Main definitions

* `strided k skip l`: every `k`-th member of a list, after the first `skip` ones

## Main results

* `CharSet.mul_stride_lt`: the places of a sample are there
* `CharSet.toList_sample`: the members of a sample are those that the walk takes
* `CharSet.sample_exact`: the number and the places of the members of a sample
-/

namespace Exemplar

/-! ## Walks with strides -/

section Strides

variable {α : Type}

/-- Every `k`-th member of a list, after the first `skip` ones. -/
def strided (k : ℕ) : (skip : ℕ) → List α → List α
  | _, [] => []
  | 0, a :: l => a :: strided k (k - 1) l
  | skip + 1, _ :: l => strided k skip l

/-- The place of a member that the walk takes. A step passes over one member, or takes it and begins
to count anew. -/
theorem getElem?_strided {k : ℕ} (hk : 0 < k) (skip : ℕ) (l : List α) (i : ℕ) :
    (strided k skip l)[i]? = l[skip + i * k]? := by
  induction l generalizing skip i with
  | nil => simp [strided]
  | cons a l ih =>
    cases skip with
    | succ skip =>
      rw [strided, ih, Nat.add_right_comm, List.getElem?_cons_succ]
    | zero =>
      cases i with
      | zero => simp [strided]
      | succ i =>
        have hplace : 0 + (i + 1) * k = k - 1 + i * k + 1 := by
          rw [Nat.succ_mul]
          omega
        rw [strided, List.getElem?_cons_succ, ih, hplace, List.getElem?_cons_succ]

/-- The members at the first places, as far as there are any. -/
theorem filterMap_range_getElem? (l : List α) (n : ℕ) :
    (List.range n).filterMap (l[·]?) = l.take n := by
  induction n with
  | zero => rfl
  | succ n ih =>
    have hlast : [n].filterMap (l[·]?) = l[n]?.toList := by
      rw [List.filterMap_cons]
      cases l[n]? <;> rfl
    rw [List.range_succ, List.filterMap_append, ih, hlast, List.take_add_one]

end Strides

namespace CharSet

variable {s : CharSet} {limit i : ℕ}

theorem length_toList (s : CharSet) : s.toList.length = s.size := Array.length_toList

/-- So many strides as there are members in the sample stay within the set. -/
theorem mul_stride_lt {size : ℕ} (h : limit ≤ size) (hi : i < limit) :
    i * (size / limit) < size := by
  have hstride : 0 < size / limit := Nat.div_pos h (Nat.zero_lt_of_lt hi)
  calc
    i * (size / limit) < limit * (size / limit) := Nat.mul_lt_mul_of_pos_right hi hstride
    _ ≤ size := Nat.mul_div_le size limit

theorem sample_of_size_le (h : s.size ≤ limit) : s.sample limit = s := dif_pos h

/-- The members of a sample are the first ones that a walk along all members takes. -/
theorem toList_sample (h : limit < s.size) :
    (s.sample limit).toList = (strided (s.size / limit) 0 s.toList).take limit := by
  rw [sample, dif_neg (Nat.not_le.mpr h), toList_ofAscending, ← filterMap_range_getElem?]
  refine List.filterMap_congr fun i hi => ?_
  have hlimit : 0 < limit := Nat.zero_lt_of_lt (List.mem_range.mp hi)
  rw [getElem?_strided (Nat.div_pos h.le hlimit), Nat.zero_add, get?_eq_getElem?]

/-- The member of a sample at a place. -/
theorem get?_sample (h : limit < s.size) (hi : i < limit) :
    (s.sample limit).get? i = s.get? (i * (s.size / limit)) := by
  have hstride : 0 < s.size / limit := Nat.div_pos h.le (Nat.zero_lt_of_lt hi)
  rw [get?_eq_getElem?, toList_sample h, List.getElem?_take_of_lt hi, getElem?_strided hstride,
    Nat.zero_add, get?_eq_getElem?]

/-- The walk takes no fewer members than the sample may have. Otherwise there would be no member at
the place after the last one. -/
theorem le_length_strided (h : limit < s.size) :
    limit ≤ (strided (s.size / limit) 0 s.toList).length := by
  by_contra hshort
  rw [Nat.not_le] at hshort
  have hnone := List.getElem?_eq_none_iff.mpr
    (Nat.le_refl (strided (s.size / limit) 0 s.toList).length)
  rw [getElem?_strided (Nat.div_pos h.le (Nat.zero_lt_of_lt hshort)), Nat.zero_add,
    List.getElem?_eq_none_iff, length_toList] at hnone
  exact Nat.not_lt.mpr hnone (mul_stride_lt h.le hshort)

theorem size_sample (s : CharSet) (limit : ℕ) : (s.sample limit).size = min limit s.size := by
  rcases Nat.lt_or_ge limit s.size with h | h
  · rw [← length_toList, toList_sample h, List.length_take, Nat.min_eq_left (le_length_strided h),
      Nat.min_eq_left h.le]
  · rw [sample_of_size_le h, Nat.min_eq_right h]

theorem sample_sample {limit' : ℕ} (h : limit ≤ limit') :
    (s.sample limit).sample limit' = s.sample limit := by
  apply sample_of_size_le
  rw [size_sample]
  exact (Nat.min_le_left _ _).trans h

/-- A sample has members of the set only, and as many as it may have. If the set has more, they are
those at the multiples of the stride from the first place on, all of which are there, and the first
ones that a walk with this stride takes. To take a sample of it again changes nothing, unless it may
have fewer members. -/
theorem sample_exact (s : CharSet) (limit : ℕ) :
    (∀ c ∈ s.sample limit, c ∈ s) ∧ (s.sample limit).size = min limit s.size ∧
    (0 < limit → limit < s.size →
      (∀ i < limit, i * (s.size / limit) < s.size ∧
        (s.sample limit).get? i = s.get? (i * (s.size / limit))) ∧
      (∀ c, c ∈ s.sample limit ↔ ∃ i < limit, s.get? (i * (s.size / limit)) = some c) ∧
      (s.sample limit).toList = (strided (s.size / limit) 0 s.toList).take limit) ∧
    ∀ limit' ≥ limit, (s.sample limit).sample limit' = s.sample limit := by
  refine ⟨fun c => mem_of_mem_sample, size_sample s limit, fun _ h => ⟨fun i hi => ?_, ?_, ?_⟩,
    fun limit' => sample_sample⟩
  · exact ⟨mul_stride_lt h.le hi, get?_sample h hi⟩
  · intro c
    rw [mem_iff, List.mem_iff_getElem?]
    simp only [← get?_eq_getElem?]
    constructor
    · rintro ⟨i, hi⟩
      have hlt : i < limit := by
        by_contra hge
        rw [get?_eq_none_iff.mpr (by rw [size_sample]; omega)] at hi
        cases hi
      exact ⟨i, hlt, get?_sample h hlt ▸ hi⟩
    · rintro ⟨i, hlt, hi⟩
      exact ⟨i, (get?_sample h hlt).trans hi⟩
  · exact toList_sample h

/-- Every second digit, as far as there are to be four. -/
theorem sample_exact_digits : 0 < 4 ∧ 4 < digits.size ∧
    (digits.sample 4).toList = ['0', '2', '4', '6'] ∧ (digits.sample 4).size = 4 ∧
    (∀ i < 4, i * 2 < 10 ∧ (digits.sample 4).get? i = digits.get? (i * 2)) ∧
    (digits.sample 4).sample 9 = digits.sample 4 := by
  obtain ⟨-, hsize, hplaces, hagain⟩ := sample_exact digits 4
  have hten : digits.size = 10 := by decide
  obtain ⟨hget, -, hwalk⟩ := hplaces (by decide) (by rw [hten]; decide)
  rw [hten] at hsize hget hwalk
  refine ⟨by decide, by rw [hten]; decide, ?_, hsize, hget, hagain 9 (by decide)⟩
  rw [hwalk]
  decide

end CharSet

end Exemplar
