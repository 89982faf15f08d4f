import Exemplar.Proofs.Counts
import Mathlib.Data.ENat.Lattice
import Mathlib.Order.CompletePartialOrder

/-!
# Extents as intervals

The ends of an extent are kept at `unbounded` in each step of a computation. Computed with counts of
any size and with a proper infinity, the ends of sums and products come out the same if they are
kept at `unbounded` only once, at the end: what is lost on the way would be lost then.

## Main definitions

* `Interval`: an interval of counts of any size, with or without an upper end
* `Extent.interval`: the interval that an extent stands for
* `Interval.extent`: the extent with the ends of an interval, kept at `unbounded`
* `Extent.Formula`: sums and products of extents
* `Extent.Recipe`: all ways to come by an extent

## Main results

* `Interval.extent_add`, `Interval.extent_mul`: each operation with the ends kept before or after it
* `Extent.Recipe.ends?_eq`: the ends that a recipe computes one by one are those of an extent
* `Extent.arithmetic_exact`: sums, products and common parts are those of intervals
-/

namespace Exemplar

/-- A count of any size kept at `unbounded`. -/
def truncate (n : ℕ∞) : ℕ := min (WithTop.untopD unbounded n) unbounded

@[simp] theorem truncate_top : truncate ⊤ = unbounded := rfl

@[simp] theorem truncate_coe (n : ℕ) : truncate n = min n unbounded := rfl

theorem truncate_le (n : ℕ∞) : truncate n ≤ unbounded := Nat.min_le_right _ _

theorem truncate_mono {m n : ℕ∞} (h : m ≤ n) : truncate m ≤ truncate n := by
  induction n using ENat.recTopCoe with
  | top => exact truncate_le m
  | coe n =>
    lift m to ℕ using ne_top_of_le_ne_top (ENat.natCast_ne_top n) h
    rw [truncate_coe, truncate_coe]
    exact min_le_min_right unbounded (Nat.cast_le.mp h)

/-- A sum with infinity is infinite, and `unbounded` swallows what is added to it. -/
theorem truncate_add (m n : ℕ∞) : truncate (m + n) = cappedAdd (truncate m) (truncate n) := by
  induction m using ENat.recTopCoe with
  | top =>
    rw [top_add, truncate_top, cappedAdd]
    omega
  | coe m =>
    induction n using ENat.recTopCoe with
    | top =>
      rw [add_top, truncate_top, cappedAdd]
      omega
    | coe n =>
      rw [← Nat.cast_add, truncate_coe, truncate_coe, truncate_coe, cappedAdd]
      omega

theorem cappedMul_comm (m n : ℕ) : cappedMul m n = cappedMul n m := by
  rw [cappedMul, cappedMul, Nat.mul_comm]

/-- Infinity times a count is what `unbounded` times the count is kept at: nothing for nothing. Any
other factor is at least one, and stays so. -/
theorem truncate_top_mul (n : ℕ∞) : truncate (⊤ * n) = cappedMul unbounded (truncate n) := by
  by_cases hn : n = 0
  · rw [hn, mul_zero, ← Nat.cast_zero, truncate_coe]
    rfl
  · rw [ENat.top_mul hn, truncate_top]
    have hone : 1 ≤ truncate n := by
      have := truncate_mono (Order.one_le_iff_ne_zero.mpr hn)
      rwa [← Nat.cast_one, truncate_coe] at this
    have := Nat.le_mul_of_pos_right unbounded hone
    rw [cappedMul, Nat.min_eq_right this]

/-- Truncating a product is multiplying what has been truncated. -/
theorem truncate_mul (m n : ℕ∞) : truncate (m * n) = cappedMul (truncate m) (truncate n) := by
  induction m using ENat.recTopCoe with
  | top => rw [truncate_top_mul, truncate_top]
  | coe m =>
    induction n using ENat.recTopCoe with
    | top => rw [mul_comm, truncate_top_mul, truncate_top, cappedMul_comm]
    | coe n =>
      rw [← Nat.cast_mul, truncate_coe, truncate_coe, truncate_coe, Extent.cappedMul_min,
        cappedMul_comm, Extent.cappedMul_min, cappedMul_comm, cappedMul]

/-! ## Intervals -/

/-- An interval of counts of any size. Its upper end may be infinite. -/
structure Interval where
  least : ℕ
  most : ℕ∞
  least_le_most : least ≤ most

namespace Interval

/-- The sums of a count from `i` and one from `j`. -/
def add (i j : Interval) : Interval where
  least := i.least + j.least
  most := i.most + j.most
  least_le_most := by
    rw [Nat.cast_add]
    exact add_le_add i.least_le_most j.least_le_most

/-- The ends of `i` times those of `j`, where zero times infinity is zero. -/
def mul (i j : Interval) : Interval where
  least := i.least * j.least
  most := i.most * j.most
  least_le_most := by
    rw [Nat.cast_mul]
    exact mul_le_mul' i.least_le_most j.least_le_most

/-- The extent whose ends are those of the interval, kept at `unbounded`. -/
def extent (i : Interval) : Extent where
  least := min i.least unbounded
  most := truncate i.most
  least_le_most := by
    rw [← truncate_coe]
    exact truncate_mono i.least_le_most
  most_le_unbounded := truncate_le i.most

theorem extent_add (i j : Interval) : (i.add j).extent = i.extent.add j.extent := by
  apply Extent.ext
  · change min (i.least + j.least) unbounded = cappedAdd (min _ _) (min _ _)
    rw [cappedAdd]
    omega
  · exact truncate_add i.most j.most

theorem extent_mul (i j : Interval) : (i.mul j).extent = i.extent.mul j.extent := by
  apply Extent.ext
  · change min (i.least * j.least) unbounded = cappedMul (min _ _) (min _ _)
    rw [← truncate_coe, ← truncate_coe, ← truncate_coe, Nat.cast_mul, truncate_mul]
  · exact truncate_mul i.most j.most

end Interval

namespace Extent

/-- The greatest count, `⊤` if there is no limit. -/
def limit (e : Extent) : ℕ∞ := if e.most = unbounded then ⊤ else e.most

theorem truncate_limit (e : Extent) : truncate e.limit = e.most := by
  rw [limit]
  by_cases hopen : e.most = unbounded
  · rw [if_pos hopen, truncate_top, hopen]
  · rw [if_neg hopen, truncate_coe, Nat.min_eq_left e.most_le_unbounded]

/-- What an extent stands for: an upper end at `unbounded` is infinite. -/
def interval (e : Extent) : Interval where
  least := e.least
  most := e.limit
  least_le_most := by
    rw [limit]
    split
    · exact le_top
    · exact Nat.cast_le.mpr e.least_le_most

@[simp] theorem extent_interval (e : Extent) : e.interval.extent = e := by
  apply ext
  · exact Nat.min_eq_left (e.least_le_most.trans e.most_le_unbounded)
  · exact truncate_limit e

/-! ## Sums and products -/

/-- Sums and products of extents. -/
inductive Formula where
  | given (e : Extent)
  | add (a b : Formula)
  | mul (a b : Formula)

namespace Formula

/-- The value, with the ends kept at `unbounded` in each step. -/
def value : Formula → Extent
  | given e => e
  | add a b => a.value.add b.value
  | mul a b => a.value.mul b.value

/-- The exact value. -/
def exact : Formula → Interval
  | given e => e.interval
  | add a b => a.exact.add b.exact
  | mul a b => a.exact.mul b.exact

theorem value_eq (f : Formula) : f.value = f.exact.extent := by
  induction f with
  | given e => exact (extent_interval e).symm
  | add a b iha ihb => rw [value, exact, iha, ihb, Interval.extent_add]
  | mul a b iha ihb => rw [value, exact, iha, ihb, Interval.extent_mul]

end Formula

/-! ## Common parts -/

variable {own range : Extent}

/-- The ends of the common part, computed without it. -/
theorem ends_clip (own range : Extent) :
    ((own.clip range).toOption.map fun e => (e.least, e.most)) =
      if range.most < own.least ∨ own.most < range.least then none
      else some (max own.least range.least, min own.most range.most) := by
  cases h : own.clip range with
  | error reason =>
    rw [clip_eq_error] at h
    rw [if_pos (h.imp And.left And.left)]
    rfl
  | ok e =>
    obtain ⟨hl, hm⟩ := ends_of_clip h
    have := e.least_le_most
    rw [if_neg (by omega), ← hl, ← hm]
    rfl

/-- Where two extents share a count, clipping gives just the counts that they share. -/
theorem exists_clip_iff : (∃ n, n ∈ own ∧ n ∈ range) ↔
    ∃ e, own.clip range = .ok e ∧ ∀ n, n ∈ e ↔ n ∈ own ∧ n ∈ range := by
  constructor
  · rintro ⟨n, hown, hrange⟩
    obtain ⟨e, he⟩ := clip_of_mem hown hrange
    obtain ⟨hl, hm⟩ := ends_of_clip he
    refine ⟨e, he, fun k => ⟨mem_of_mem_clip he, ?_⟩⟩
    simp only [mem_iff, hl, hm]
    omega
  · rintro ⟨e, -, hmem⟩
    exact ⟨e.least, (hmem _).mp ⟨le_rfl, e.least_le_most⟩⟩

/-- A range is told to be too low just if all of its counts are below all of the others: the ends
that are closest decide. -/
theorem clip_eq_belowLeast_iff : own.clip range = .error (.belowLeast own.least) ↔
    ∀ m ∈ range, ∀ n ∈ own, m < n := by
  have hbelow : own.clip range = .error (.belowLeast own.least) ↔ range.most < own.least := by
    simp [clip_eq_error]
  rw [hbelow]
  constructor
  · intro h m hm n hn
    exact hm.2.trans_lt (h.trans_le hn.1)
  · intro h
    exact h _ ⟨range.least_le_most, le_rfl⟩ _ ⟨le_rfl, own.least_le_most⟩

/-- A range is told to be too high just if all of its counts are above all of the others. -/
theorem clip_eq_aboveMost_iff : own.clip range = .error (.aboveMost own.most) ↔
    ∀ m ∈ range, ∀ n ∈ own, n < m := by
  have habove : own.clip range = .error (.aboveMost own.most) ↔ own.most < range.least := by
    simp [clip_eq_error]
  rw [habove]
  constructor
  · intro h m hm n hn
    exact hn.2.trans_lt (h.trans_le hm.1)
  · intro h
    exact h _ ⟨le_rfl, range.least_le_most⟩ _ ⟨own.least_le_most, le_rfl⟩

/-! ## Ways to come by an extent -/

/-- A way to come by an extent. -/
inductive Recipe where
  | ofEnds (least most : ℕ)
  | exactly (n : ℕ)
  | atLeast (n : ℕ)
  | atMost (n : ℕ)
  | add (a b : Recipe)
  | mul (a b : Recipe)
  | clip (own range : Recipe)

namespace Recipe

/-- The extent, unless some step fails. -/
def extent? : Recipe → Option Extent
  | ofEnds least most => (Extent.ofEnds least most).toOption
  | exactly n => some (.exactly n)
  | atLeast n => some (.atLeast n)
  | atMost n => some (.atMost n)
  | add a b => do return (← a.extent?).add (← b.extent?)
  | mul a b => do return (← a.extent?).mul (← b.extent?)
  | clip own range => do ((← own.extent?).clip (← range.extent?)).toOption

/-- The two ends, computed side by side. Nothing here keeps them in order. -/
def ends? : Recipe → Option (ℕ × ℕ)
  | ofEnds least most =>
    if most < least then none else some (min least unbounded, min most unbounded)
  | exactly n => some (min n unbounded, min n unbounded)
  | atLeast n => some (min n unbounded, unbounded)
  | atMost n => some (0, min n unbounded)
  | add a b => do
    let (least, most) ← a.ends?
    let (least', most') ← b.ends?
    return (cappedAdd least least', cappedAdd most most')
  | mul a b => do
    let (least, most) ← a.ends?
    let (least', most') ← b.ends?
    return (cappedMul least least', cappedMul most most')
  | clip own range => do
    let (least, most) ← own.ends?
    let (least', most') ← range.ends?
    if most' < least ∨ most < least' then none else some (max least least', min most most')

/-- The ends are those of the extent, and missing where it is. Where both operands are intervals,
clipping them is clipping their ends. -/
theorem ends?_eq (r : Recipe) : r.ends? = r.extent?.map fun e => (e.least, e.most) := by
  induction r with
  | ofEnds least most =>
    rw [ends?, extent?, Extent.ofEnds]
    by_cases h : least ≤ most
    · rw [if_neg (Nat.not_lt.mpr h), dif_pos h]
      rfl
    · rw [if_pos (Nat.lt_of_not_le h), dif_neg h]
      rfl
  | exactly n => rfl
  | atLeast n => rfl
  | atMost n => rfl
  | add a b iha ihb =>
    rw [ends?, extent?, iha, ihb]
    cases a.extent? <;> cases b.extent? <;> rfl
  | mul a b iha ihb =>
    rw [ends?, extent?, iha, ihb]
    cases a.extent? <;> cases b.extent? <;> rfl
  | clip own range iho ihr =>
    rw [ends?, extent?, iho, ihr]
    cases own.extent? with
    | none => rfl
    | some e =>
      cases range.extent? with
      | none => rfl
      | some e' => exact (ends_clip e e').symm

/-- The ends that a recipe computes are in order, although no step looks at the order of both. -/
theorem le_of_ends? {r : Recipe} {least most : ℕ} (h : r.ends? = some (least, most)) :
    least ≤ most ∧ most ≤ unbounded := by
  rw [ends?_eq] at h
  obtain ⟨e, -, he⟩ := Option.map_eq_some_iff.mp h
  obtain ⟨rfl, rfl⟩ := Prod.mk.inj he
  exact ⟨e.least_le_most, e.most_le_unbounded⟩

end Recipe

/-! ## Exact arithmetic -/

/-- A sum or product of extents is the exact one, kept at `unbounded`. However an extent is come by,
its ends are in order. The common part of two extents holds what both hold, and where there is none,
the failure tells on which side the other extent lies. -/
theorem arithmetic_exact :
    (∀ f : Formula, f.value = f.exact.extent) ∧
    (∀ r : Recipe, (r.ends? = r.extent?.map fun e => (e.least, e.most)) ∧
      ∀ least most, r.ends? = some (least, most) → least ≤ most ∧ most ≤ unbounded) ∧
    ∀ own range : Extent,
      ((∃ n, n ∈ own ∧ n ∈ range) ↔
        ∃ e, own.clip range = .ok e ∧ ∀ n, n ∈ e ↔ n ∈ own ∧ n ∈ range) ∧
      (own.clip range = .error (.belowLeast own.least) ↔ ∀ m ∈ range, ∀ n ∈ own, m < n) ∧
      (own.clip range = .error (.aboveMost own.most) ↔ ∀ m ∈ range, ∀ n ∈ own, n < m) := by
  refine ⟨Formula.value_eq, fun r => ⟨r.ends?_eq, fun least most => Recipe.le_of_ends?⟩, ?_⟩
  intro own range
  exact ⟨exists_clip_iff, clip_eq_belowLeast_iff, clip_eq_aboveMost_iff⟩

end Extent

end Exemplar
