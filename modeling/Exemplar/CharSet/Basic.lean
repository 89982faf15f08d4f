/-!
# Sets of characters

A `CharSet` is a finite set of characters, kept as its members in ascending order, each once. So
equal sets have equal members in the same places, membership is found by bisection, and a random
member is found by a random index.

## Main definitions

* `CharSet`: the type, seen through membership and through `toList`, its members in order
* `CharSet.contains`: membership by bisection
* `CharSet.union`, `CharSet.inter`, `CharSet.diff`, `CharSet.insert`: the operations on sets
* `CharSet.range`: all characters from one to another
* `CharSet.sample`: evenly spaced members, at most so many
-/

namespace Exemplar

/-- The character with the code point `n`; surrogate code points are no characters. -/
def charAt? (n : Nat) : Option Char :=
  if h : n.isValidChar then some (Char.ofNatAux n h) else none

theorem toNat_of_charAt? {n : Nat} {c : Char} (h : charAt? n = some c) : c.toNat = n := by
  by_cases hn : n.isValidChar
  · rw [charAt?, dif_pos hn] at h
    cases h; rfl
  · rw [charAt?, dif_neg hn] at h
    cases h

/-- A finite set of characters. -/
structure CharSet where
  /-- The members in ascending order, each once. -/
  chars : Array Char
  ascending : chars.toList.Pairwise (· < ·)

namespace CharSet

/-- The members in ascending order. -/
def toList (s : CharSet) : List Char := s.chars.toList

@[ext] theorem ext_toList {s t : CharSet} (h : s.toList = t.toList) : s = t := by
  cases s; cases t; simp_all [toList, Array.ext_iff]

instance : DecidableEq CharSet := fun s t =>
  decidable_of_iff (s.toList = t.toList) ⟨ext_toList, fun h => h ▸ rfl⟩

instance : Membership Char CharSet where
  mem s c := c ∈ s.toList

instance (c : Char) (s : CharSet) : Decidable (c ∈ s) :=
  inferInstanceAs (Decidable (c ∈ s.toList))

theorem mem_iff {c : Char} {s : CharSet} : c ∈ s ↔ c ∈ s.toList := Iff.rfl

/-- The set of these characters, which are in ascending order. -/
def ofAscending (l : List Char) (h : l.Pairwise (· < ·)) : CharSet := ⟨l.toArray, h⟩

@[simp] theorem toList_ofAscending {l : List Char} (h : l.Pairwise (· < ·)) :
    (ofAscending l h).toList = l := rfl

/-- The set without members. -/
def empty : CharSet := ⟨#[], List.Pairwise.nil⟩

instance : EmptyCollection CharSet := ⟨empty⟩

instance : Inhabited CharSet := ⟨∅⟩

/-- The set whose only member is `c`. -/
def singleton (c : Char) : CharSet := ⟨#[c], List.pairwise_singleton ..⟩

/-- The number of members. -/
def size (s : CharSet) : Nat := s.chars.size

/-- Whether there is no member. -/
def isEmpty (s : CharSet) : Bool := s.chars.isEmpty

/-- The member at the index `i` in ascending order. -/
def get? (s : CharSet) (i : Nat) : Option Char := s.chars[i]?

/-- Bisection: whether `c` stands at an index from `lo` up to and without `hi`. -/
def bisect (chars : Array Char) (c : Char) (lo hi : Nat) (h : hi ≤ chars.size) : Bool :=
  if hlt : lo < hi then
    let mid := (lo + hi) / 2
    have hmid : mid < chars.size := by omega
    let m := chars[mid]
    if m < c then bisect chars c (mid + 1) hi h
    else if c < m then bisect chars c lo mid (by omega)
    else true
  else false
termination_by hi - lo

/-- Whether `c` is a member. -/
def contains (s : CharSet) (c : Char) : Bool :=
  bisect s.chars c 0 s.chars.size (Nat.le_refl _)

/-- The members that pass the test `p`. -/
def filter (p : Char → Bool) (s : CharSet) : CharSet where
  chars := s.chars.filter p
  ascending := by rw [Array.toList_filter]; exact s.ascending.filter _

/-- The members of both sets. -/
def inter (s t : CharSet) : CharSet := s.filter fun c => t.contains c

/-- The members of `s` that are not in `t`. -/
def diff (s t : CharSet) : CharSet := s.filter fun c => !t.contains c

/-- Bisection finds nothing but members. -/
theorem mem_of_bisect {chars : Array Char} {c : Char} {lo hi : Nat} {h : hi ≤ chars.size}
    (hb : bisect chars c lo hi h = true) : c ∈ chars := by
  fun_induction bisect chars c lo hi h with
  | case1 lo hi h hlt mid hmid m hm ih => exact ih hb
  | case2 lo hi h hlt mid hmid m hm hm' ih => exact ih hb
  | case3 lo hi h hlt mid hmid m hm hm' =>
    have : c = m := by
      simp only [Char.not_lt] at hm hm'
      exact Char.le_antisymm hm hm'
    exact this ▸ Array.getElem_mem _
  | case4 => cases hb

/-- A member is found as long as its index is still in the interval that is searched. -/
theorem bisect_of_getElem {chars : Array Char} (hs : chars.toList.Pairwise (· < ·)) {c : Char}
    {i : Nat} (hi : i < chars.size) (hc : chars[i] = c) {lo hi : Nat} {h : hi ≤ chars.size}
    (hlo : lo ≤ i) (hhi : i < hi) : bisect chars c lo hi h = true := by
  have hlt : ∀ {j k : Nat} (hj : j < chars.size) (hk : k < chars.size), j < k →
      chars[j] < chars[k] := by
    intro j k hj hk hjk
    have := List.pairwise_iff_getElem.1 hs j k (by simpa using hj) (by simpa using hk) hjk
    simpa using this
  fun_induction bisect chars c lo hi h with
  | case1 lo hi h hl mid hmid m hm ih =>
    refine ih ?_ hhi
    rcases Nat.lt_or_ge mid i with hmi | hmi
    · exact hmi
    · rcases Nat.lt_or_eq_of_le hmi with hmi | hmi
      · exact absurd (Char.lt_trans hm (hc ▸ hlt (by omega) (by omega) hmi)) (Char.lt_irrefl _)
      · subst hmi hc; exact absurd hm (Char.lt_irrefl _)
  | case2 lo hi h hl mid hmid m hm hm' ih =>
    refine ih hlo ?_
    rcases Nat.lt_or_ge i mid with hmi | hmi
    · exact hmi
    · rcases Nat.lt_or_eq_of_le hmi with hmi | hmi
      · exact absurd (Char.lt_trans hm' (hc ▸ hlt (by omega) (by omega) hmi)) (Char.lt_irrefl _)
      · subst hmi hc; exact absurd hm' (Char.lt_irrefl _)
  | case3 => rfl
  | case4 lo hi h hl => exact absurd (Nat.lt_of_le_of_lt hlo hhi) hl

/-- Bisection finds the members and nothing else. -/
theorem contains_iff {s : CharSet} {c : Char} : s.contains c = true ↔ c ∈ s := by
  constructor
  · intro h
    exact Array.mem_toList_iff.2 (mem_of_bisect h)
  · intro h
    obtain ⟨i, hi, hc⟩ := Array.mem_iff_getElem.1 (Array.mem_toList_iff.1 h)
    exact bisect_of_getElem s.ascending hi hc (Nat.zero_le _) hi

@[simp] theorem toList_filter (p : Char → Bool) (s : CharSet) :
    (s.filter p).toList = s.toList.filter p := Array.toList_filter

theorem mem_diff {s t : CharSet} {c : Char} : c ∈ s.diff t ↔ c ∈ s ∧ c ∉ t := by
  rw [mem_iff, diff, toList_filter, List.mem_filter, ← mem_iff, ← contains_iff (s := t)]
  simp

/-- Two lists in ascending order as one. The recursion follows the second list alone, so that closed
sets can be evaluated in proofs. -/
def merge : List Char → List Char → List Char
  | l, [] => l
  | l, c :: rest => l.takeWhile (· < c) ++ c :: merge (l.dropWhile (· < c)) rest

theorem mem_merge {l m : List Char} {c : Char} : c ∈ merge l m ↔ c ∈ l ∨ c ∈ m := by
  induction m generalizing l with
  | nil => simp [merge]
  | cons d m ih =>
    have hl : c ∈ l ↔ c ∈ l.takeWhile (· < d) ∨ c ∈ l.dropWhile (· < d) := by
      rw [← List.mem_append, List.takeWhile_append_dropWhile]
    rw [merge, List.mem_append, List.mem_cons, ih, hl, List.mem_cons]
    simp only [or_assoc, or_left_comm]

/-- In an ascending list without `c`, the characters from the first one that is not below `c` on are
above it. -/
theorem lt_of_mem_dropWhile {l : List Char} (hl : l.Pairwise (· < ·)) {c d : Char} (hc : c ∉ l)
    (hd : d ∈ l.dropWhile (· < c)) : c < d := by
  induction l with
  | nil => cases hd
  | cons a l ih =>
    obtain ⟨hfirst, hrest⟩ := List.pairwise_cons.1 hl
    rw [List.mem_cons, not_or] at hc
    rw [List.dropWhile_cons] at hd
    split at hd
    · exact ih hrest hc.2 hd
    next hac =>
      have hca : c < a :=
        Std.lt_of_le_of_ne (Char.not_lt.1 (by simpa using hac)) hc.1
      rcases List.mem_cons.1 hd with rfl | hd
      · exact hca
      · exact Char.lt_trans hca (hfirst d hd)

/-- Ascending lists without common members become one ascending list. -/
theorem pairwise_merge {l m : List Char} (hl : l.Pairwise (· < ·)) (hm : m.Pairwise (· < ·))
    (h : ∀ c ∈ m, c ∉ l) : (merge l m).Pairwise (· < ·) := by
  induction m generalizing l with
  | nil => exact hl
  | cons c m ih =>
    obtain ⟨hfirst, hrest⟩ := List.pairwise_cons.1 hm
    obtain ⟨hc, hdisjoint⟩ := List.forall_mem_cons.1 h
    have hdrop : l.dropWhile (· < c) <:+ l := List.dropWhile_suffix _
    have habove : ∀ d ∈ merge (l.dropWhile (· < c)) m, c < d := by
      intro d hd
      rcases mem_merge.1 hd with hd | hd
      · exact lt_of_mem_dropWhile hl hc hd
      · exact hfirst d hd
    have hbelow : ∀ d ∈ l.takeWhile (· < c), d < c := by
      intro d hd
      simpa using List.all_eq_true.1 (List.all_takeWhile (p := (· < c)) (l := l)) d hd
    rw [merge, List.pairwise_append, List.pairwise_cons]
    refine ⟨hl.sublist (List.takeWhile_sublist _), ⟨habove, ?_⟩, fun a ha d hd => ?_⟩
    · exact ih (hl.sublist hdrop.sublist) hrest fun d hd hin => hdisjoint d hd (hdrop.subset hin)
    · rcases List.mem_cons.1 hd with rfl | hd
      · exact hbelow a ha
      · exact Char.lt_trans (hbelow a ha) (habove d hd)

/-- The members of either set: those of `s`, merged with those that only `t` has. -/
def union (s t : CharSet) : CharSet :=
  ofAscending (merge s.toList (t.diff s).toList) <|
    pairwise_merge s.ascending (t.diff s).ascending fun _ h => (mem_diff.1 h).2

/-- The members of any of the sets. -/
def unionAll (sets : List CharSet) : CharSet := sets.foldl union ∅

/-- The set with the member `c` added. -/
def insert (s : CharSet) (c : Char) : CharSet := s.union (singleton c)

/-- The set of these characters, in whatever order and however often they are given. -/
def ofList (l : List Char) : CharSet := l.foldl insert ∅

/-- All characters from `lo` to `hi`, both included; none if `hi` is before `lo`. -/
def range (lo hi : Char) : CharSet :=
  ofAscending ((List.range' lo.toNat (hi.toNat + 1 - lo.toNat)).filterMap charAt?) <| by
    refine List.pairwise_filterMap.2 ((List.pairwise_lt_range' 1).imp fun {a b} hab c hc d hd => ?_)
    rw [Char.lt_def, UInt32.lt_iff_toNat_lt]
    have hc' := toNat_of_charAt? hc
    have hd' := toNat_of_charAt? hd
    simp only [Char.toNat] at hc' hd'
    omega

/-- At most `limit` members: all of them, or else every so many-th from the first on, where the
step is the quotient of the sizes rounded down. -/
def sample (s : CharSet) (limit : Nat) : CharSet :=
  if hsize : s.size ≤ limit then s
  else
    ofAscending ((List.range limit).filterMap fun i => s.get? (i * (s.size / limit))) <| by
      rcases Nat.eq_zero_or_pos limit with rfl | hpos
      · simp
      · have hstep : 0 < s.size / limit := Nat.div_pos (by omega) hpos
        refine List.pairwise_filterMap.2 (List.pairwise_lt_range.imp fun {i j} hij a ha b hb => ?_)
        obtain ⟨hi, rfl⟩ := Array.getElem?_eq_some_iff.1 ha
        obtain ⟨hj, rfl⟩ := Array.getElem?_eq_some_iff.1 hb
        have hlt : i * (s.size / limit) < j * (s.size / limit) :=
          Nat.mul_lt_mul_of_lt_of_le hij (Nat.le_refl _) hstep
        have := List.pairwise_iff_getElem.1 s.ascending _ _ (by simpa using hi) (by simpa using hj)
          hlt
        simpa using this

instance : Ord CharSet where
  compare s t := List.compareLex compare s.toList t.toList

end CharSet

end Exemplar
