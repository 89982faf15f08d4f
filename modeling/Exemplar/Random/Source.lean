import Exemplar.Extent

/-!
# Random sources

Two kinds of random choice are enough to generate strings: a count from an interval, and an order
in which to try some alternatives. A source answers both from a state of its own. Whatever it
answers, the count lies in the interval and the order is one of all the alternatives; this is part
of the type, so what is generated never has to be checked against the source.

## Main definitions

* `RandomSource`: a source with states in `σ`
* `RandomSource.shuffle`: a list in the order that the source chooses
* `fisherYates`: an order chosen by successive exchanges
* `RandomSource.recorded`: a source that keeps a record of its answers
-/

namespace Exemplar

/-- A source of random choices with states in `σ`. -/
structure RandomSource (σ : Type) where
  /-- A count that is at least `least` and below `below`; with `below = unbounded` there is no
  limit, and without such a count it is `least`. -/
  range : (least below : Nat) → σ → Nat × σ
  /-- An order of the numbers below `n`. -/
  order : (n : Nat) → σ → List Nat × σ
  range_mem : ∀ {least below : Nat} (s : σ), least < below → least < unbounded →
    least ≤ (range least below s).1 ∧ (range least below s).1 < below
  range_empty : ∀ {least below : Nat} (s : σ), below ≤ least → below < unbounded →
    (range least below s).1 = least
  order_perm : ∀ (n : Nat) (s : σ), (order n s).1.Perm (List.range n)

namespace RandomSource

variable {σ : Type}

/-- A count is never below the least one asked for. -/
theorem le_range (source : RandomSource σ) {least : Nat} (below : Nat) (s : σ)
    (h : least < unbounded) : least ≤ (source.range least below s).1 := by
  rcases Nat.lt_or_ge least below with hlt | hge
  · exact (source.range_mem s hlt h).1
  · exact Nat.le_of_eq (source.range_empty s hge (by omega)).symm

/-- A list in the order that the source chooses. The choice depends on nothing but its length. -/
def shuffle {α : Type} (source : RandomSource σ) (l : List α) (s : σ) : List α × σ :=
  let (order, s) := source.order l.length s
  (order.filterMap (l[·]?), s)

/-- A shuffled list has the same members, each as often. -/
theorem shuffle_perm {α : Type} (source : RandomSource σ) (l : List α) (s : σ) :
    (source.shuffle l s).1.Perm l := by
  have h : (List.range l.length).filterMap (l[·]?) = l := by
    induction l with
    | nil => rfl
    | cons a l ih =>
      rw [List.length_cons, List.range_succ_eq_map, List.filterMap_cons, List.filterMap_map]
      simpa [Function.comp_def] using ih
  have := (source.order_perm l.length s).filterMap (l[·]?)
  rwa [h] at this

end RandomSource

/-! ### Orders by exchange -/

/-- Exchanges the number at each place from `i` down to the first but one with the number at a
random place that is not behind it. -/
def fisherYates {σ : Type} (below : Nat → σ → Nat × σ) : Nat → Array Nat → σ → Array Nat × σ
  | 0, numbers, s => (numbers, s)
  | i + 1, numbers, s =>
    let (j, s) := below (i + 2) s
    fisherYates below i (numbers.swapIfInBounds (i + 1) j) s

/-- Exchanges leave a permutation. -/
theorem fisherYates_perm {σ : Type} (below : Nat → σ → Nat × σ) (i : Nat) (numbers : Array Nat)
    (s : σ) : (fisherYates below i numbers s).1.Perm numbers := by
  induction i generalizing numbers s with
  | zero => exact .refl _
  | succ i ih =>
    refine (ih _ _).trans ?_
    rw [Array.swapIfInBounds_def]
    split
    · split
      · exact Array.swap_perm _ _
      · exact .refl _
    · exact .refl _

/-- An order of the numbers below `n`, from random numbers below given bounds. -/
def orderBy {σ : Type} (below : Nat → σ → Nat × σ) (n : Nat) (s : σ) : List Nat × σ :=
  let (numbers, s) := fisherYates below (n - 1) (Array.range n) s
  (numbers.toList, s)

theorem orderBy_perm {σ : Type} (below : Nat → σ → Nat × σ) (n : Nat) (s : σ) :
    (orderBy below n s).1.Perm (List.range n) := by
  have := Array.perm_iff_toList_perm.1 (fisherYates_perm below (n - 1) (Array.range n) s)
  rwa [Array.toList_range] at this

/-! ### Records -/

/-- An answer of a random source. -/
inductive Draw where
  /-- The count `result` out of an interval. -/
  | range (least below result : Nat)
  /-- An order of the numbers below `n`. -/
  | order (n : Nat)
deriving DecidableEq, Repr

/-- An answer in writing. -/
def Draw.text : Draw → String
  | range least below result =>
    let below := if below = unbounded then "inf" else toString below
    s!"range({least},{below})={result}"
  | order n => s!"shuffle({n})"

/-- The source that answers as `source` does and puts its answers on record, latest first. -/
def RandomSource.recorded {σ : Type} (source : RandomSource σ) : RandomSource (σ × List Draw) where
  range least below := fun (s, record) =>
    let (n, s) := source.range least below s
    (n, s, .range least below n :: record)
  order n := fun (s, record) =>
    let (order, s) := source.order n s
    (order, s, .order n :: record)
  range_mem := fun (s, _) => source.range_mem s
  range_empty := fun (s, _) => source.range_empty s
  order_perm n := fun (s, _) => source.order_perm n s

end Exemplar
