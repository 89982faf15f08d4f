/-!
# Extents

An extent is a closed interval of counts: how often something may occur, or how long a string may
be. Its upper end may be `unbounded`, the largest count there is, which stands for "no limit".
Sums and products are kept at `unbounded`, so an extent that is open at the top stays open however
it is combined.

## Main definitions

* `unbounded`: the largest count, and the mark of an open upper end
* `Extent`: a closed interval of counts
* `Extent.add`, `Extent.mul`: the lengths of two parts together, and of so many copies of a part
* `Extent.clip`: the common part of two extents, or on which side they miss each other
* `shortOf`, `quotient`, `quotientUp`, `justAbove`: arithmetic on counts that respects `unbounded`
-/

namespace Exemplar

/-- The largest count. As an upper end it means that there is no limit. -/
def unbounded : Nat := 0xFFFFFFFFFFFFFFFF

/-- The sum of two counts, kept at `unbounded`. -/
def cappedAdd (a b : Nat) : Nat := min (a + b) unbounded

/-- The product of two counts, kept at `unbounded`; nothing times `unbounded` is nothing. -/
def cappedMul (a b : Nat) : Nat := min (a * b) unbounded

/-- What `a` exceeds `b` by, nothing if it does not; `unbounded` exceeds every count by
`unbounded`. -/
def shortOf (a b : Nat) : Nat := if a = unbounded then unbounded else a - b

/-- How many parts of size `b` fit into `a`: any number if `b` is nothing or `a` has no limit. -/
def quotient (a b : Nat) : Nat := if b = 0 ∨ a = unbounded then unbounded else a / b

/-- How many parts of size at most `b` are needed to make up `a`: one part without limit makes up
any positive count, and no number of empty parts does. -/
def quotientUp (a b : Nat) : Nat :=
  if a = 0 then 0
  else if b = 0 ∨ a = unbounded then unbounded
  else if b = unbounded then 1
  else (a + b - 1) / b

/-- The exclusive upper end that goes with the inclusive upper end `a`. -/
def justAbove (a : Nat) : Nat := cappedAdd a 1

/-- Why a request for lengths cannot be met. -/
inductive LengthError where
  /-- All requested lengths are below the least possible one. -/
  | belowLeast (least : Nat)
  /-- All requested lengths are above the greatest possible one. -/
  | aboveMost (most : Nat)
  /-- No string of just this length exists, although shorter and longer ones may. -/
  | infeasible (length : Nat)
deriving DecidableEq, Repr

/-- The wording of a length error. -/
def LengthError.message : LengthError → String
  | .belowLeast least => s!"Length cannot be less than {least}"
  | .aboveMost most => s!"Length cannot be greater than {most}"
  | .infeasible length => s!"No string of length {length} can be produced"

/-- Two counts that are not the ends of an extent, because the first one is greater. -/
structure DisorderedEnds where
  least : Nat
  most : Nat
deriving DecidableEq, Repr

/-- The wording of the error. -/
def DisorderedEnds.message (e : DisorderedEnds) : String :=
  s!"invalid bounds: minimum {e.least} is greater than maximum {e.most}"

/-- A closed interval of counts. -/
structure Extent where
  /-- The least count. -/
  least : Nat
  /-- The greatest count, or `unbounded` if there is no limit. -/
  most : Nat
  least_le_most : least ≤ most
  most_le_unbounded : most ≤ unbounded
deriving DecidableEq, Repr

namespace Extent

@[ext] theorem ext {a b : Extent} (hl : a.least = b.least) (hm : a.most = b.most) : a = b := by
  cases a; cases b; simp_all

/-- The extent from `least` to `most`, if these are in order. A number beyond `unbounded` is read
as `unbounded`. -/
def ofEnds (least most : Nat) : Except DisorderedEnds Extent :=
  if h : least ≤ most then
    .ok ⟨min least unbounded, min most unbounded, by omega, Nat.min_le_right ..⟩
  else .error ⟨least, most⟩

/-- Just the count `n`. -/
def exactly (n : Nat) : Extent :=
  ⟨min n unbounded, min n unbounded, Nat.le_refl _, Nat.min_le_right ..⟩

/-- Every count from `n` on. -/
def atLeast (n : Nat) : Extent := ⟨min n unbounded, unbounded, Nat.min_le_right .., Nat.le_refl _⟩

/-- Every count up to `n`. -/
def atMost (n : Nat) : Extent := ⟨0, min n unbounded, Nat.zero_le _, Nat.min_le_right ..⟩

/-- Exactly one. -/
def once : Extent := ⟨1, 1, by decide, by decide⟩

/-- None or one. -/
def optional : Extent := ⟨0, 1, by decide, by decide⟩

/-- Any number. -/
def any : Extent := ⟨0, unbounded, by decide, by decide⟩

/-- None. -/
def zero : Extent := ⟨0, 0, by decide, by decide⟩

instance : Inhabited Extent := ⟨once⟩

/-- Whether there is no upper limit. -/
def isOpen (e : Extent) : Bool := e.most = unbounded

/-- A count lies in an extent when it is at least its lower and at most its upper end. -/
instance : Membership Nat Extent where
  mem e n := e.least ≤ n ∧ n ≤ e.most

instance (n : Nat) (e : Extent) : Decidable (n ∈ e) :=
  inferInstanceAs (Decidable (e.least ≤ n ∧ n ≤ e.most))

theorem mem_iff {n : Nat} {e : Extent} : n ∈ e ↔ e.least ≤ n ∧ n ≤ e.most := Iff.rfl

/-- The lengths of a part from `a` followed by a part from `b`. -/
def add (a b : Extent) : Extent where
  least := cappedAdd a.least b.least
  most := cappedAdd a.most b.most
  least_le_most := by
    have := a.least_le_most; have := b.least_le_most
    simp only [cappedAdd]; omega
  most_le_unbounded := Nat.min_le_right ..

/-- The lengths of `a` copies of a part from `b`, each copy of a length of its own. -/
def mul (a b : Extent) : Extent where
  least := cappedMul a.least b.least
  most := cappedMul a.most b.most
  least_le_most := by
    have := Nat.mul_le_mul a.least_le_most b.least_le_most
    simp only [cappedMul]; omega
  most_le_unbounded := Nat.min_le_right ..

/-- The least extent that covers both `a` and `b`. -/
def hull (a b : Extent) : Extent where
  least := min a.least b.least
  most := max a.most b.most
  least_le_most := by have := a.least_le_most; omega
  most_le_unbounded := by have := a.most_le_unbounded; have := b.most_le_unbounded; omega

/-- The lengths of parts that follow each other. -/
def sumAll (es : List Extent) : Extent := es.foldr add zero

/-- The least extent that covers all of them; nothing but zero if there are none. -/
def hullAll : List Extent → Extent
  | [] => zero
  | [e] => e
  | e :: es => e.hull (hullAll es)

/-- The counts that lie both in `own` and in `range`, or on which side of `own` the range lies. -/
def clip (own range : Extent) : Except LengthError Extent :=
  if hb : range.most < own.least then .error (.belowLeast own.least)
  else if ha : own.most < range.least then .error (.aboveMost own.most)
  else .ok
    { least := max own.least range.least
      most := min own.most range.most
      least_le_most := by have := own.least_le_most; have := range.least_le_most; omega
      most_le_unbounded := by have := own.most_le_unbounded; omega }

/-- An extent in writing: `[2,3]`, or `[2,∞)` without a limit. -/
def text (e : Extent) : String :=
  if e.isOpen then s!"[{e.least},∞)" else s!"[{e.least},{e.most}]"

/-! ### The ends of each operation -/

@[simp] theorem least_add (a b : Extent) : (a.add b).least = cappedAdd a.least b.least := rfl

@[simp] theorem most_add (a b : Extent) : (a.add b).most = cappedAdd a.most b.most := rfl

@[simp] theorem least_mul (a b : Extent) : (a.mul b).least = cappedMul a.least b.least := rfl

@[simp] theorem most_mul (a b : Extent) : (a.mul b).most = cappedMul a.most b.most := rfl

@[simp] theorem least_hull (a b : Extent) : (a.hull b).least = min a.least b.least := rfl

@[simp] theorem most_hull (a b : Extent) : (a.hull b).most = max a.most b.most := rfl

end Extent

end Exemplar
