import Exemplar.CharSet.Basic

/-!
# Members of sets of characters

What each operation on sets of characters does to membership.
-/

namespace Exemplar

theorem charAt?_toNat (c : Char) : charAt? c.toNat = some c := by
  have h : c.toNat.isValidChar := c.valid
  rw [charAt?, dif_pos h]
  exact congrArg some (Char.toNat_inj.1 rfl)

namespace CharSet

variable {s t : CharSet} {c d lo hi : Char}

@[simp] theorem not_mem_empty : ¬ c ∈ (∅ : CharSet) := List.not_mem_nil

@[simp] theorem mem_singleton : c ∈ singleton d ↔ c = d := List.mem_singleton

@[simp] theorem mem_filter {p : Char → Bool} : c ∈ s.filter p ↔ c ∈ s ∧ p c = true := by
  rw [mem_iff, toList_filter, List.mem_filter, mem_iff]

@[simp] theorem mem_inter : c ∈ s.inter t ↔ c ∈ s ∧ c ∈ t := by
  rw [inter, mem_filter, contains_iff]

@[simp] theorem mem_union : c ∈ s.union t ↔ c ∈ s ∨ c ∈ t := by
  rw [mem_iff, union, toList_ofAscending, mem_merge, ← mem_iff, ← mem_iff, mem_diff]
  by_cases h : c ∈ s <;> simp [h]

@[simp] theorem mem_unionAll {sets : List CharSet} : c ∈ unionAll sets ↔ ∃ s ∈ sets, c ∈ s := by
  suffices h : ∀ s : CharSet, c ∈ sets.foldl union s ↔ c ∈ s ∨ ∃ s ∈ sets, c ∈ s by
    simpa [unionAll] using h ∅
  induction sets with
  | nil => simp
  | cons t sets ih => intro s; simp [ih, or_assoc]

/-- The members of all the sets. -/
theorem mem_foldl_inter {sets : List CharSet} :
    c ∈ sets.foldl inter s ↔ c ∈ s ∧ ∀ t ∈ sets, c ∈ t := by
  induction sets generalizing s with
  | nil => simp
  | cons t sets ih => simp [ih, and_assoc]

@[simp] theorem mem_insert : c ∈ s.insert d ↔ c ∈ s ∨ c = d := by
  rw [insert, mem_union, mem_singleton]

@[simp] theorem mem_ofList {l : List Char} : c ∈ ofList l ↔ c ∈ l := by
  suffices h : ∀ s : CharSet, c ∈ l.foldl insert s ↔ c ∈ s ∨ c ∈ l by
    simpa [ofList] using h ∅
  induction l with
  | nil => simp
  | cons a l ih => intro s; rw [List.foldl_cons, ih, mem_insert, List.mem_cons, or_assoc]

theorem le_iff_toNat_le {a b : Char} : a ≤ b ↔ a.toNat ≤ b.toNat := by
  rw [Char.le_def, UInt32.le_iff_toNat_le]; rfl

/-- A range holds just the characters between its ends. -/
@[simp] theorem mem_range : c ∈ range lo hi ↔ lo ≤ c ∧ c ≤ hi := by
  rw [mem_iff, range, toList_ofAscending, List.mem_filterMap]
  simp only [List.mem_range'_1, le_iff_toNat_le]
  constructor
  · rintro ⟨n, hn, hc⟩
    have := toNat_of_charAt? hc
    omega
  · intro h
    exact ⟨c.toNat, by omega, charAt?_toNat c⟩

theorem mem_of_mem_sample {limit : Nat} (h : c ∈ s.sample limit) : c ∈ s := by
  unfold sample at h
  split at h
  · exact h
  · rw [mem_iff, toList_ofAscending, List.mem_filterMap] at h
    obtain ⟨i, -, hi⟩ := h
    exact Array.mem_toList_iff.mpr (Array.mem_of_getElem? hi)

/-- A sample leaves something of a set that is not empty. -/
theorem exists_mem_sample {limit : Nat} (h : c ∈ s) (hlimit : 0 < limit) :
    ∃ d, d ∈ s.sample limit := by
  unfold sample
  split
  · exact ⟨c, h⟩
  next hsize =>
    have hfirst : 0 < s.chars.size := Nat.lt_of_lt_of_le hlimit (Nat.le_of_not_le hsize)
    refine ⟨s.chars[0], ?_⟩
    rw [mem_iff, toList_ofAscending, List.mem_filterMap]
    refine ⟨0, List.mem_range.mpr hlimit, ?_⟩
    rw [Nat.zero_mul]
    exact Array.getElem?_eq_getElem hfirst

theorem isEmpty_eq_false_iff : s.isEmpty = false ↔ ∃ c, c ∈ s := by
  have hlist : s.isEmpty = s.toList.isEmpty := Array.isEmpty_toList.symm
  rw [hlist, List.isEmpty_eq_false_iff_exists_mem]
  rfl

theorem isEmpty_iff : s.isEmpty = true ↔ s = ∅ := by
  rw [isEmpty, Array.isEmpty_iff]
  exact ⟨fun h => ext_toList (congrArg Array.toList h), congrArg chars⟩

theorem isEmpty_eq_false_of_mem (h : c ∈ s) : s.isEmpty = false := isEmpty_eq_false_iff.mpr ⟨c, h⟩

end CharSet

end Exemplar
