import Exemplar.Proofs.Lists
import Mathlib.Algebra.BigOperators.Group.List.Basic
import Mathlib.Data.Set.Basic

/-!
# Matchers

A matcher tells where in a string something matches: from which position up to which other one.
Matchers are put together as patterns are: one after the other, one or the other, so many times
over, and by looking at what stands in front or behind.

Two matchers may be alike without being equal, when they differ in one end of their matches only.
This is so for a lookaround and the same text read as a part of the match.

## Main definitions

* `Matcher`: the type, with a product for "one after the other"
* `Matcher.anyOf`, `Matcher.times`, `Matcher.behind`, `Matcher.ahead`: the other ways to put
  matchers together
* `Matcher.word`: the matcher of a single text
* `Matcher.Alike`: matchers that differ in marked ends of their matches only

## Main results

* `Matcher.word_matches`: a text matches where it stands
* `Matcher.Alike.mul`, `Matcher.Alike.behind`, `Matcher.Alike.ahead`: what is put together from
  matchers that are alike is alike
-/

namespace Exemplar

/-- Where in a string something matches. -/
structure Matcher where
  /-- There is a match in the string from one position up to the other. -/
  Matches : List Char → Nat → Nat → Prop
  bounded : ∀ {s : List Char} {i j : Nat}, Matches s i j → i ≤ j ∧ j ≤ s.length

namespace Matcher

variable {a b c d m : Matcher} {s : List Char} {i j k : Nat}

@[ext] theorem ext (h : ∀ s i j, a.Matches s i j ↔ b.Matches s i j) : a = b := by
  cases a with
  | mk p hp =>
    cases b with
    | mk q hq =>
      obtain rfl : p = q := funext₃ fun s i j => propext (h s i j)
      rfl

/-- The empty string, anywhere. -/
instance : One Matcher where
  one :=
    { Matches := fun s i j => i = j ∧ j ≤ s.length
      bounded := fun h => ⟨h.1.le, h.2⟩ }

/-- One after the other. -/
instance : Mul Matcher where
  mul a b :=
    { Matches := fun s i j => ∃ k, a.Matches s i k ∧ b.Matches s k j
      bounded := fun ⟨_, ha, hb⟩ => ⟨(a.bounded ha).1.trans (b.bounded hb).1, (b.bounded hb).2⟩ }

@[simp] theorem one_matches : (1 : Matcher).Matches s i j ↔ i = j ∧ j ≤ s.length := Iff.rfl

theorem mul_matches : (a * b).Matches s i j ↔ ∃ k, a.Matches s i k ∧ b.Matches s k j := Iff.rfl

instance : Monoid Matcher where
  one_mul a := by
    ext s i j
    constructor
    · rintro ⟨k, ⟨rfl, -⟩, ha⟩
      exact ha
    · intro ha
      exact ⟨i, ⟨rfl, (a.bounded ha).1.trans (a.bounded ha).2⟩, ha⟩
  mul_one a := by
    ext s i j
    constructor
    · rintro ⟨k, ha, rfl, -⟩
      exact ha
    · intro ha
      exact ⟨j, ha, rfl, (a.bounded ha).2⟩
  mul_assoc a b c := by
    ext s i j
    constructor
    · rintro ⟨k, ⟨l, ha, hb⟩, hc⟩
      exact ⟨l, ha, k, hb, hc⟩
    · rintro ⟨l, ha, k, hb, hc⟩
      exact ⟨k, ⟨l, ha, hb⟩, hc⟩

/-- A single character of the set. -/
def char (p : Set Char) : Matcher where
  Matches s i j := ∃ c ∈ p, s[i]? = some c ∧ j = i + 1
  bounded := by
    rintro s i j ⟨c, -, hc, rfl⟩
    have := (List.getElem?_eq_some_iff.mp hc).1
    omega

/-- The empty string, at the beginning. -/
def atStart : Matcher where
  Matches _ i j := i = 0 ∧ j = 0
  bounded := by
    rintro s i j ⟨rfl, rfl⟩
    exact ⟨Nat.le_refl _, Nat.zero_le _⟩

/-- The empty string, at the end. -/
def atEnd : Matcher where
  Matches s i j := i = s.length ∧ j = s.length
  bounded := by
    rintro s i j ⟨rfl, rfl⟩
    exact ⟨Nat.le_refl _, Nat.le_refl _⟩

/-- The empty string, behind something. -/
def behind (m : Matcher) : Matcher where
  Matches s i j := i = j ∧ ∃ k, m.Matches s k i
  bounded := by
    rintro s i j ⟨rfl, k, hm⟩
    exact ⟨Nat.le_refl _, (m.bounded hm).2⟩

/-- The empty string, in front of something. -/
def ahead (m : Matcher) : Matcher where
  Matches s i j := i = j ∧ ∃ k, m.Matches s j k
  bounded := by
    rintro s i j ⟨rfl, k, hm⟩
    exact ⟨Nat.le_refl _, (m.bounded hm).1.trans (m.bounded hm).2⟩

/-- One of these. -/
def anyOf (ms : List Matcher) : Matcher where
  Matches s i j := ∃ m ∈ ms, m.Matches s i j
  bounded := fun ⟨m, _, hm⟩ => m.bounded hm

/-- One after the other, for some number of times that is in the set. -/
def times (counts : Set Nat) (m : Matcher) : Matcher where
  Matches s i j := ∃ n ∈ counts, (m ^ n).Matches s i j
  bounded := fun ⟨n, _, hm⟩ => (m ^ n).bounded hm

theorem char_matches {p : Set Char} :
    (char p).Matches s i j ↔ ∃ c ∈ p, s[i]? = some c ∧ j = i + 1 := Iff.rfl

@[simp] theorem atStart_matches : atStart.Matches s i j ↔ i = 0 ∧ j = 0 := Iff.rfl

@[simp] theorem atEnd_matches : atEnd.Matches s i j ↔ i = s.length ∧ j = s.length := Iff.rfl

@[simp] theorem behind_matches : (behind m).Matches s i j ↔ i = j ∧ ∃ k, m.Matches s k i := Iff.rfl

@[simp] theorem ahead_matches : (ahead m).Matches s i j ↔ i = j ∧ ∃ k, m.Matches s j k := Iff.rfl

@[simp] theorem anyOf_matches {ms : List Matcher} :
    (anyOf ms).Matches s i j ↔ ∃ m ∈ ms, m.Matches s i j := Iff.rfl

theorem times_matches {counts : Set Nat} :
    (times counts m).Matches s i j ↔ ∃ n ∈ counts, (m ^ n).Matches s i j := Iff.rfl

@[simp] theorem anyOf_singleton (m : Matcher) : anyOf [m] = m := by
  ext s i j
  simp

theorem atStart_mul_matches : (atStart * m).Matches s i j ↔ i = 0 ∧ m.Matches s i j := by
  constructor
  · rintro ⟨k, ⟨rfl, rfl⟩, hm⟩
    exact ⟨rfl, hm⟩
  · rintro ⟨rfl, hm⟩
    exact ⟨0, ⟨rfl, rfl⟩, hm⟩

theorem mul_atEnd_matches : (m * atEnd).Matches s i j ↔ j = s.length ∧ m.Matches s i j := by
  constructor
  · rintro ⟨k, hm, rfl, rfl⟩
    exact ⟨rfl, hm⟩
  · rintro ⟨rfl, hm⟩
    exact ⟨s.length, hm, rfl, rfl⟩

/-! ## Texts -/

/-- A text, character by character. -/
def word (w : List Char) : Matcher := (w.map fun c => char {c}).prod

@[simp] theorem word_nil : word [] = 1 := rfl

@[simp] theorem word_append (v w : List Char) : word (v ++ w) = word v * word w := by
  rw [word, List.map_append, List.prod_append, word, word]

/-- A text matches where it stands. Its first character stands directly in front of the rest of
it. -/
theorem word_matches {w : List Char} :
    (word w).Matches s i j ↔ ∃ u z, s = u ++ w ++ z ∧ i = u.length ∧ j = u.length + w.length := by
  induction w generalizing i j with
  | nil =>
    rw [word_nil, one_matches]
    constructor
    · rintro ⟨rfl, hi⟩
      exact ⟨s.take i, s.drop i, by simp, by simp [hi], by simp [hi]⟩
    · rintro ⟨u, z, rfl, rfl, rfl⟩
      simp
  | cons c w ih =>
    have hcons : word (c :: w) = char {c} * word w := by simp [word]
    rw [hcons]
    constructor
    · rintro ⟨k, ⟨d, rfl, hget, rfl⟩, hw⟩
      obtain ⟨u, z, rfl, hu, rfl⟩ := ih.mp hw
      rcases List.eq_nil_or_concat u with rfl | ⟨v, e, rfl⟩
      · simp at hu
      · obtain rfl : i = v.length := by simpa using hu
        obtain rfl : e = d := by simpa using hget
        exact ⟨v, z, by simp, rfl, by simp; omega⟩
    · rintro ⟨u, z, rfl, rfl, rfl⟩
      refine ⟨u.length + 1, ⟨c, rfl, by simp, rfl⟩, ih.mpr ⟨u ++ [c], z, by simp, by simp, ?_⟩⟩
      simp
      omega

/-! ## Repetition -/

theorem pow_succ_matches {n : Nat} :
    (m ^ (n + 1)).Matches s i j ↔ ∃ k, m.Matches s i k ∧ (m ^ n).Matches s k j := by
  rw [pow_succ']
  rfl

/-- What matches at the beginning only can be repeated there only, and the last repetition is a
match of its own. The repetitions behind the first one begin at the beginning as well. -/
theorem matches_of_pow_start (h : ∀ {i j}, m.Matches s i j → i = 0) {n : Nat} (hn : n ≠ 0)
    (hm : (m ^ n).Matches s i j) : m.Matches s i j := by
  induction n generalizing i with
  | zero => exact absurd rfl hn
  | succ n ih =>
    obtain ⟨k, hfirst, hrest⟩ := pow_succ_matches.mp hm
    cases n with
    | zero =>
      obtain ⟨rfl, -⟩ := hrest
      exact hfirst
    | succ n =>
      have hlast := ih n.succ_ne_zero hrest
      rw [h hfirst, ← h hlast]
      exact hlast

/-- What matches at the end only can be repeated there only, and the first repetition is a match of
its own. -/
theorem matches_of_pow_end (h : ∀ {i j}, m.Matches s i j → j = s.length) {n : Nat} (hn : n ≠ 0)
    (hm : (m ^ n).Matches s i j) : m.Matches s i j := by
  induction n generalizing i with
  | zero => exact absurd rfl hn
  | succ n ih =>
    obtain ⟨k, hfirst, hrest⟩ := pow_succ_matches.mp hm
    cases n with
    | zero =>
      obtain ⟨rfl, -⟩ := hrest
      exact hfirst
    | succ n =>
      rw [h (ih n.succ_ne_zero hrest), ← h hfirst]
      exact hfirst

/-! ## Matchers that are alike -/

/-- Wherever `a` matches, `b` does, with the same ends but for those that are loose. -/
def Approx (front back : Bool) (a b : Matcher) : Prop :=
  ∀ s i j, a.Matches s i j →
    ∃ i' j', b.Matches s i' j' ∧ (front = false → i' = i) ∧ (back = false → j' = j)

/-- Both matchers match in the same places, but for the ends that are loose. -/
structure Alike (front back : Bool) (a b : Matcher) : Prop where
  left : Approx front back a b
  right : Approx front back b a

variable {front back : Bool}

theorem Approx.refl (a : Matcher) : Approx front back a a :=
  fun _ i j h => ⟨i, j, h, fun _ => rfl, fun _ => rfl⟩

theorem Approx.mono {front' back' : Bool} (h : Approx front back a b)
    (hf : front' = false → front = false) (hb : back' = false → back = false) :
    Approx front' back' a b := by
  intro s i j ha
  obtain ⟨i', j', hm, hi, hj⟩ := h s i j ha
  exact ⟨i', j', hm, fun h => hi (hf h), fun h => hj (hb h)⟩

/-- Matchers that agree up to some ends agree up to all of these ends. -/
theorem Approx.trans {front' back' : Bool} (h : Approx front back a b)
    (h' : Approx front' back' b c) : Approx (front || front') (back || back') a c := by
  intro s i j ha
  obtain ⟨i', j', hb, hi, hj⟩ := h s i j ha
  obtain ⟨i'', j'', hc, hi', hj'⟩ := h' s i' j' hb
  refine ⟨i'', j'', hc, ?_, ?_⟩
  · intro hf
    rw [Bool.or_eq_false_iff] at hf
    exact (hi' hf.2).trans (hi hf.1)
  · intro hb
    rw [Bool.or_eq_false_iff] at hb
    exact (hj' hb.2).trans (hj hb.1)

theorem Approx.mul (hab : Approx front false a b) (hcd : Approx false back c d) :
    Approx front back (a * c) (b * d) := by
  rintro s i j ⟨k, ha, hc⟩
  obtain ⟨i', k₁, hb, hi, hk₁⟩ := hab s i k ha
  obtain ⟨k₂, j', hd, hk₂, hj⟩ := hcd s k j hc
  obtain rfl := hk₁ rfl
  obtain rfl := hk₂ rfl
  exact ⟨i', j', ⟨k₂, hb, hd⟩, hi, hj⟩

theorem Approx.anyOf {as bs : List Matcher} (h : ∀ a ∈ as, ∃ b ∈ bs, Approx front back a b) :
    Approx front back (anyOf as) (anyOf bs) := by
  rintro s i j ⟨a, ha, hm⟩
  obtain ⟨b, hb, hab⟩ := h a ha
  obtain ⟨i', j', hm', hij⟩ := hab s i j hm
  exact ⟨i', j', ⟨b, hb, hm'⟩, hij⟩

theorem Approx.times (hab : Approx front back a b) {counts : Set Nat} (h : ∀ n ∈ counts, n ≤ 1) :
    Approx front back (times counts a) (times counts b) := by
  rintro s i j ⟨n, hn, hm⟩
  rcases Nat.le_one_iff_eq_zero_or_eq_one.mp (h n hn) with rfl | rfl
  · exact ⟨i, j, ⟨0, hn, hm⟩, fun _ => rfl, fun _ => rfl⟩
  · rw [pow_one] at hm
    obtain ⟨i', j', hm', hij⟩ := hab s i j hm
    exact ⟨i', j', ⟨1, hn, by rwa [pow_one]⟩, hij⟩

namespace Alike

theorem refl (a : Matcher) : Alike front back a a := ⟨.refl a, .refl a⟩

theorem mono {front' back' : Bool} (h : Alike front back a b)
    (hf : front' = false → front = false) (hb : back' = false → back = false) :
    Alike front' back' a b :=
  ⟨h.left.mono hf hb, h.right.mono hf hb⟩

theorem trans {front' back' : Bool} (h : Alike front back a b) (h' : Alike front' back' b c) :
    Alike (front || front') (back || back') a c := by
  refine ⟨h.left.trans h'.left, (h'.right.trans h.right).mono ?_ ?_⟩
  · rw [Bool.or_comm]
    exact id
  · rw [Bool.or_comm]
    exact id

/-- Where no end is loose, there is no difference. -/
theorem eq (h : Alike false false a b) : a = b := by
  have heq : ∀ {a b : Matcher}, Approx false false a b → ∀ s i j, a.Matches s i j →
      b.Matches s i j := by
    intro a b hab s i j ha
    obtain ⟨i', j', hb, hi, hj⟩ := hab s i j ha
    rwa [hi rfl, hj rfl] at hb
  ext s i j
  exact ⟨heq h.left s i j, heq h.right s i j⟩

theorem mul (hab : Alike front false a b) (hcd : Alike false back c d) :
    Alike front back (a * c) (b * d) :=
  ⟨hab.left.mul hcd.left, hab.right.mul hcd.right⟩

/-- Choices between matchers that are alike one by one are alike. -/
theorem anyOf {as bs : List Matcher} (h : List.Forall₂ (Alike front back) as bs) :
    Alike front back (anyOf as) (anyOf bs) := by
  refine ⟨.anyOf ?_, .anyOf ?_⟩
  · intro a ha
    obtain ⟨b, hb, hab⟩ := exists_right_of_mem h ha
    exact ⟨b, hb, hab.left⟩
  · intro b hb
    obtain ⟨a, ha, hab⟩ := exists_left_of_mem h hb
    exact ⟨a, ha, hab.right⟩

theorem times (hab : Alike front back a b) {counts : Set Nat} (h : ∀ n ∈ counts, n ≤ 1) :
    Alike front back (times counts a) (times counts b) :=
  ⟨hab.left.times h, hab.right.times h⟩

/-- Looking behind for something, instead of matching it. -/
theorem behind (h : Alike front false a b) : Alike true false a (behind b) := by
  constructor
  · intro s i j ha
    obtain ⟨i', j', hb, -, hj⟩ := h.left s i j ha
    obtain rfl := hj rfl
    exact ⟨j', j', ⟨rfl, i', hb⟩, nofun, fun _ => rfl⟩
  · rintro s i j ⟨rfl, k, hb⟩
    obtain ⟨i', j', ha, -, hj⟩ := h.right s k i hb
    obtain rfl := hj rfl
    exact ⟨i', j', ha, nofun, fun _ => rfl⟩

/-- Looking ahead for something, instead of matching it. -/
theorem ahead (h : Alike false back a b) : Alike false true a (ahead b) := by
  constructor
  · intro s i j ha
    obtain ⟨i', j', hb, hi, -⟩ := h.left s i j ha
    obtain rfl := hi rfl
    exact ⟨i', i', ⟨rfl, j', hb⟩, fun _ => rfl, nofun⟩
  · rintro s i j ⟨rfl, k, hb⟩
    obtain ⟨i', j', ha, hi, -⟩ := h.right s i k hb
    obtain rfl := hi rfl
    exact ⟨i', j', ha, fun _ => rfl, nofun⟩

end Alike

end Matcher

end Exemplar
