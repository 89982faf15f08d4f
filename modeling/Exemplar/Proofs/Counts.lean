import Exemplar.Extent
import Mathlib.Algebra.BigOperators.Group.List.Basic
import Mathlib.Algebra.Order.BigOperators.Group.List
import Mathlib.Algebra.Order.Ring.Nat
import Mathlib.Data.List.Forall2

/-!
# Counts without a limit

An extent is stored with ends that are kept at `unbounded`. What it stands for are counts of any
size: an upper end at `unbounded` is no limit, and every other end is what it says. The operations
on extents are sound for this reading, whatever was lost when an end was kept at `unbounded`.

## Main definitions

* `Extent.Admits e n`: the count `n`, however large, is one that the extent stands for

## Main results

* `Extent.admits_sumAll`, `Extent.admits_mul`, `Extent.admits_hullAll`: the operations are sound
* `Extent.least_sumAll`, `Extent.most_sumAll`: capping after each step is capping at the end
* `Extent.ends_of_clip`, `Extent.clip_eq_error`: the common part of two extents, or why there is
  none
-/

namespace Exemplar.Extent

/-- The count `n` is one that the extent stands for; an upper end at `unbounded` is no limit. -/
def Admits (e : Extent) (n : Nat) : Prop := e.least ≤ n ∧ (e.most = unbounded ∨ n ≤ e.most)

theorem admits_of_mem {e : Extent} {n : Nat} (h : n ∈ e) : e.Admits n := ⟨h.1, .inr h.2⟩

/-- Below `unbounded`, an extent holds the counts that it stands for. -/
theorem Admits.mem {e : Extent} {n : Nat} (h : e.Admits n) (hn : n < unbounded) : n ∈ e := by
  obtain ⟨hl, hm⟩ := h
  refine ⟨hl, ?_⟩
  rcases hm with hm | hm
  · omega
  · exact hm

@[simp] theorem admits_once {n : Nat} : once.Admits n ↔ n = 1 := by
  simp only [Admits, once, unbounded]
  omega

@[simp] theorem admits_optional {n : Nat} : optional.Admits n ↔ n ≤ 1 := by
  simp only [Admits, optional, unbounded]
  omega

@[simp] theorem admits_any {n : Nat} : any.Admits n := by
  simp [Admits, any]

@[simp] theorem admits_zero {n : Nat} : zero.Admits n ↔ n = 0 := by
  simp only [Admits, zero, unbounded]
  omega

/-! ## Sums -/

theorem admits_add {a b : Extent} {m n : Nat} (hm : a.Admits m) (hn : b.Admits n) :
    (a.add b).Admits (m + n) := by
  obtain ⟨hal, ham⟩ := hm
  obtain ⟨hbl, hbm⟩ := hn
  have := a.most_le_unbounded
  have := b.most_le_unbounded
  simp only [Admits, least_add, most_add, cappedAdd]
  omega

theorem admits_sumAll {es : List Extent} {ns : List Nat} (h : List.Forall₂ Admits es ns) :
    (sumAll es).Admits ns.sum := by
  induction h with
  | nil => simp [sumAll]
  | cons hn _ ih => exact admits_add hn ih

theorem least_sumAll (es : List Extent) :
    (sumAll es).least = min (es.map least).sum unbounded := by
  induction es with
  | nil => simp [sumAll, zero]
  | cons e es ih =>
    have hcons : sumAll (e :: es) = e.add (sumAll es) := rfl
    rw [hcons, least_add, ih, List.map_cons, List.sum_cons, cappedAdd]
    omega

theorem most_sumAll (es : List Extent) : (sumAll es).most = min (es.map most).sum unbounded := by
  induction es with
  | nil => simp [sumAll, zero]
  | cons e es ih =>
    have hcons : sumAll (e :: es) = e.add (sumAll es) := rfl
    rw [hcons, most_add, ih, List.map_cons, List.sum_cons, cappedAdd]
    omega

/-! ## Products -/

/-- Nothing is lost when a factor is kept at `unbounded` as the product is. -/
theorem cappedMul_min (n k : Nat) : cappedMul n (min k unbounded) = cappedMul n k := by
  rcases Nat.le_total k unbounded with hk | hk
  · rw [Nat.min_eq_left hk]
  · rw [Nat.min_eq_right hk]
    rcases Nat.eq_zero_or_pos n with rfl | hn
    · rw [cappedMul, cappedMul, Nat.zero_mul, Nat.zero_mul]
    · have hlarge : unbounded ≤ n * unbounded := Nat.le_mul_of_pos_left _ hn
      have hmono : n * unbounded ≤ n * k := Nat.mul_le_mul_left n hk
      rw [cappedMul, cappedMul, Nat.min_eq_right hlarge, Nat.min_eq_right (hlarge.trans hmono)]

theorem sum_le_length_mul {ns : List Nat} {b : Nat} (h : ∀ n ∈ ns, n ≤ b) :
    ns.sum ≤ ns.length * b := by
  simpa using List.sum_le_card_nsmul ns b h

theorem length_mul_le_sum {ns : List Nat} {b : Nat} (h : ∀ n ∈ ns, b ≤ n) :
    ns.length * b ≤ ns.sum := by
  simpa using List.card_nsmul_le_sum ns b h

/-- So many counts, each one that `b` stands for, have a sum that the product stands for. The
product is exact, so an open end on one side meets zero on the other. -/
theorem admits_mul {a b : Extent} {ns : List Nat} (ha : a.Admits ns.length)
    (hb : ∀ n ∈ ns, b.Admits n) : (a.mul b).Admits ns.sum := by
  obtain ⟨hal, ham⟩ := ha
  have hlower : a.least * b.least ≤ ns.sum :=
    (Nat.mul_le_mul_right _ hal).trans (length_mul_le_sum fun n hn => (hb n hn).1)
  refine ⟨by simp only [least_mul, cappedMul]; omega, ?_⟩
  simp only [most_mul, cappedMul]
  rcases Nat.lt_or_ge (a.most * b.most) unbounded with hlt | hge
  · right
    rw [Nat.min_eq_left hlt.le]
    rcases ham with ham | ham
    · have hzero : b.most = 0 := by
        rcases Nat.eq_zero_or_pos b.most with h | h
        · exact h
        · have := Nat.le_mul_of_pos_right a.most h
          omega
      have hsum : ns.sum ≤ ns.length * 0 := sum_le_length_mul fun n hn => by
        rcases (hb n hn).2 with h | h
        · rw [hzero] at h
          exact absurd h (by decide)
        · exact hzero ▸ h
      omega
    · rcases Nat.eq_zero_or_pos ns.length with h0 | hpos
      · have hnil : ns = [] := List.eq_nil_of_length_eq_zero h0
        simp [hnil]
      · have hle : ∀ n ∈ ns, n ≤ b.most := fun n hn => by
          rcases (hb n hn).2 with h | h
          · have := Nat.le_mul_of_pos_left b.most (hpos.trans_le ham)
            omega
          · exact h
        exact (sum_le_length_mul hle).trans (Nat.mul_le_mul_right _ ham)
  · left
    exact Nat.min_eq_right hge

/-! ## Hulls -/

theorem admits_hull_left {a b : Extent} {n : Nat} (h : a.Admits n) : (a.hull b).Admits n := by
  obtain ⟨hl, hm⟩ := h
  have := b.most_le_unbounded
  simp only [Admits, least_hull, most_hull]
  omega

theorem admits_hull_right {a b : Extent} {n : Nat} (h : b.Admits n) : (a.hull b).Admits n := by
  obtain ⟨hl, hm⟩ := h
  have := a.most_le_unbounded
  simp only [Admits, least_hull, most_hull]
  omega

/-- A hull stands for the counts of its members. -/
theorem admits_hullAll {es : List Extent} {e : Extent} {n : Nat} (he : e ∈ es)
    (h : e.Admits n) : (hullAll es).Admits n := by
  induction es with
  | nil => cases he
  | cons a es ih =>
    cases es with
    | nil => rwa [List.mem_singleton.mp he] at h
    | cons b es =>
      rcases List.mem_cons.mp he with rfl | he
      · exact admits_hull_left h
      · exact admits_hull_right (ih he)

/-! ## Common parts -/

variable {own range lengths : Extent}

/-- The common part of two extents begins where the later one begins and ends where the earlier one
ends. -/
theorem ends_of_clip (h : own.clip range = .ok lengths) :
    lengths.least = max own.least range.least ∧ lengths.most = min own.most range.most := by
  unfold clip at h
  split at h
  · cases h
  split at h
  · cases h
  · obtain rfl := Except.ok.inj h
    exact ⟨rfl, rfl⟩

theorem clip_of_mem {n : Nat} (ho : n ∈ own) (hr : n ∈ range) :
    ∃ lengths, own.clip range = .ok lengths := by
  rw [mem_iff] at ho hr
  unfold clip
  rw [dif_neg (by omega), dif_neg (by omega)]
  exact ⟨_, rfl⟩

/-- Two extents have nothing in common just if one of them lies below the other. -/
theorem clip_eq_error {reason : LengthError} : own.clip range = .error reason ↔
    range.most < own.least ∧ reason = .belowLeast own.least ∨
      own.most < range.least ∧ reason = .aboveMost own.most := by
  have ho := own.least_le_most
  have hr := range.least_le_most
  unfold clip
  split
  next hbelow =>
    simp only [Except.error.injEq, eq_comm (b := reason)]
    constructor
    · exact fun h => .inl ⟨hbelow, h⟩
    · rintro (⟨-, h⟩ | ⟨habove, -⟩)
      · exact h
      · omega
  next hbelow =>
    split
    next habove =>
      simp only [Except.error.injEq, eq_comm (b := reason)]
      exact ⟨fun h => .inr ⟨habove, h⟩, fun h => (h.resolve_left fun h => hbelow h.1).2⟩
    next habove =>
      refine iff_of_false (fun h => by cases h) ?_
      rintro (⟨h, -⟩ | ⟨h, -⟩)
      · exact hbelow h
      · exact habove h

theorem mem_of_mem_clip {n : Nat} (h : own.clip range = .ok lengths) (hn : n ∈ lengths) :
    n ∈ own ∧ n ∈ range := by
  obtain ⟨hleast, hmost⟩ := ends_of_clip h
  rw [mem_iff] at hn
  rw [mem_iff, mem_iff]
  omega

end Exemplar.Extent
