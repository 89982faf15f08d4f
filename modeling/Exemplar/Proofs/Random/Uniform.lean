import Exemplar.Random.SplitMix
import Mathlib.Algebra.Order.Floor.Div
import Mathlib.Data.Set.Card
import Mathlib.Order.Interval.Finset.Nat

/-!
# Sources over bit generators

Words are drawn until one is accepted, and steps are taken until one is not, which may need any
number of words. Whatever a bit generator yields, an answer that is found in this way lies in the
interval that was asked for, and no word is drawn where the interval leaves no choice. The source
gives up on accepted words after many refusals; until then it gives this answer.

A word `v` is accepted for the number `k` below `n` when `v * n` lies in an interval of numbers that
begins at the `k`-th multiple of the number of words, and whose length is a multiple of `n`. So many
multiples of `n` lie in each of these intervals as this length says, which is the same for all `k`.

## Main definitions

* `FirstAccepted`: the first word that is accepted
* `BitGenerator.TakesSteps`: the steps until the first one that is not taken
* `BitGenerator.Answers`: a count from an interval, with as many words as it takes
* `KeepsInterval`: what is promised of a count from an interval
* `wordsFor`: the accepted words that yield a number

## Main results

* `BitGenerator.Answers.keepsInterval`, `BitGenerator.keepsInterval_range`: the promise is kept
* `BitGenerator.range_of_answers`: the answer of the source
* `stepThreshold_lt`: a mean that can be kept exactly leaves words that end the steps
* `ncard_wordsFor`: every number below a bound has the same number of words
* `RandomSource.ofBits_honours`: what a source over a bit generator answers
-/

namespace Exemplar

variable {γ : Type}

/-! ## Answers -/

/-- The first word that is accepted for numbers below `n`, how many are drawn with it, and the state
that they lead to. -/
inductive FirstAccepted {width : Nat} (word : γ → BitVec width × γ) (n : Nat) :
    γ → (words : Nat) → BitVec width → γ → Prop where
  | accepted {g : γ} : accepts n (word g).1 = true →
    FirstAccepted word n g 1 (word g).1 (word g).2
  | refused {g g' : γ} {words : Nat} {v : BitVec width} : accepts n (word g).1 = false →
    FirstAccepted word n (word g).2 words v g' → FirstAccepted word n g (words + 1) v g'

/-- How many steps are taken until the first one that is not, how many words are drawn for them, and
the state that they lead to. No step is taken where the mean is zero. -/
inductive BitGenerator.TakesSteps (gen : BitGenerator γ) (mean : Nat) :
    γ → (words steps : Nat) → γ → Prop where
  | still {g : γ} : mean = 0 → TakesSteps gen mean g 0 0 g
  | stop {g : γ} : 0 < mean → stepThreshold mean ≤ (gen.word64 g).1.toNat →
    TakesSteps gen mean g 1 0 (gen.word64 g).2
  | step {g g' : γ} {words steps : Nat} : 0 < mean →
    (gen.word64 g).1.toNat < stepThreshold mean →
    TakesSteps gen mean (gen.word64 g).2 words steps g' →
    TakesSteps gen mean g (words + 1) (steps + 1) g'

/-- A count that is at least `least` and below `below`, how many words are drawn for it, and the
state that they lead to. -/
inductive BitGenerator.Answers (gen : BitGenerator γ) (typicalExtra least below : Nat) (g : γ) :
    (words n : Nat) → γ → Prop where
  | limitless {words steps : Nat} {g' : γ} : below = unbounded →
    gen.TakesSteps typicalExtra g words steps g' →
    Answers gen typicalExtra least below g words (min (cappedAdd least steps) (unbounded - 1)) g'
  | sole : below < unbounded → below ≤ cappedAdd least 1 →
    Answers gen typicalExtra least below g 0 least g
  | drawn {words : Nat} {v : BitVec 64} {g' : γ} : below < unbounded →
    cappedAdd least 1 < below → FirstAccepted gen.bits64 (below - least) g words v g' →
    Answers gen typicalExtra least below g words (least + highHalf (below - least) v) g'

/-- What is promised of the count `n` from an interval, where `g` is the state that it was asked for
in and `g'` the state after it. -/
structure KeepsInterval (least below : Nat) (g : γ) (n : Nat) (g' : γ) : Prop where
  mem : least < below → below < unbounded → least ≤ n ∧ n < below
  sole : below < unbounded → below ≤ least + 1 → n = least ∧ g' = g
  limitless : below = unbounded → least < unbounded → least ≤ n ∧ n ≤ unbounded - 1

/-- A count without limit, after any number of steps. -/
theorem keepsInterval_limitless {least below : Nat} (h : below = unbounded) (steps : Nat)
    (g g' : γ) : KeepsInterval least below g (min (cappedAdd least steps) (unbounded - 1)) g' where
  mem _ hlt := absurd h hlt.ne
  sole hlt _ := absurd h hlt.ne
  limitless _ hleast := by
    simp only [cappedAdd]
    omega

/-- The least count, where there is no other one. -/
theorem keepsInterval_sole {least below : Nat} (hlt : below < unbounded) (g : γ) :
    below ≤ cappedAdd least 1 → KeepsInterval least below g least g := by
  intro hle
  simp only [cappedAdd] at hle
  exact ⟨fun h _ => ⟨le_rfl, h⟩, fun _ _ => ⟨rfl, rfl⟩, fun h => absurd h hlt.ne⟩

/-- The least count and a number below the distance to the end. -/
theorem keepsInterval_add {least below k : Nat} (hlt : below < unbounded)
    (hle : cappedAdd least 1 < below) (hk : k < below - least) (g g' : γ) :
    KeepsInterval least below g (least + k) g' where
  mem _ _ := by omega
  sole _ h := by
    simp only [cappedAdd] at hle
    omega
  limitless h := absurd h hlt.ne

theorem sub_pos_of_cappedAdd_lt {least below : Nat} (hlt : below < unbounded)
    (hle : cappedAdd least 1 < below) : 0 < below - least := by
  simp only [cappedAdd] at hle
  omega

namespace BitGenerator

variable {gen : BitGenerator γ} {typicalExtra least below words n : Nat} {g g' : γ}

/-- Whatever the generator yields, an answer keeps what is promised, and no word is drawn for it
where there is no choice. Words are drawn only where there are two numbers or more. -/
theorem Answers.keepsInterval (h : gen.Answers typicalExtra least below g words n g') :
    KeepsInterval least below g n g' ∧ (below < unbounded → below ≤ least + 1 → words = 0) := by
  cases h with
  | limitless hopen _ =>
    exact ⟨keepsInterval_limitless hopen _ g g', fun hlt => absurd hopen hlt.ne⟩
  | sole hlt hle => exact ⟨keepsInterval_sole hlt g hle, fun _ _ => rfl⟩
  | drawn hlt hle _ =>
    have hk := sub_pos_of_cappedAdd_lt hlt hle
    refine ⟨keepsInterval_add hlt hle (highHalf_lt hk _) g g', fun _ hsole => ?_⟩
    simp only [cappedAdd] at hle
    omega

/-! ## The source -/

/-- The first word that is accepted decides, if it comes in time. -/
theorem uniform_of_firstAccepted {width : Nat} {word : γ → BitVec width × γ} {v : BitVec width}
    (h : FirstAccepted word n g words v g') {patience : Nat} (hw : words ≤ patience) :
    uniform word n patience g = (highHalf n v, g') := by
  induction h generalizing patience with
  | accepted haccepts =>
    cases patience with
    | zero => cases hw
    | succ patience => simp only [uniform, haccepts, if_true]
  | refused hrefused _ ih =>
    cases patience with
    | zero => cases hw
    | succ patience =>
      simp only [uniform, hrefused, Bool.false_eq_true, if_false]
      exact ih (Nat.le_of_succ_le_succ hw)

/-- So does the first step that is not taken. -/
theorem countSteps_of_takesSteps {mean steps : Nat} (hmean : 0 < mean)
    (h : gen.TakesSteps mean g words steps g') {limit : Nat} (hw : words ≤ limit) (taken : Nat) :
    countSteps gen (stepThreshold mean) limit taken g = (taken + steps, g') := by
  induction h generalizing limit taken with
  | still hzero => omega
  | stop _ hstop =>
    cases limit with
    | zero => cases hw
    | succ limit => simp only [countSteps, Nat.not_lt.mpr hstop, if_false, Nat.add_zero]
  | step _ hstep _ ih =>
    cases limit with
    | zero => cases hw
    | succ limit =>
      simp only [countSteps, hstep, if_true]
      rw [ih (Nat.le_of_succ_le_succ hw), Nat.add_right_comm, Nat.add_assoc]

theorem steps_of_takesSteps {mean steps : Nat} (h : gen.TakesSteps mean g words steps g')
    (hw : words ≤ unbounded) : Exemplar.steps gen mean g = (steps, g') := by
  rcases Nat.eq_zero_or_pos mean with hmean | hmean
  · cases h with
    | still => rw [Exemplar.steps, if_pos hmean]
    | stop hpos => omega
    | step hpos => omega
  · rw [Exemplar.steps, if_neg hmean.ne', countSteps_of_takesSteps hmean h hw, Nat.zero_add]

/-- The source answers in this way, unless it takes too many words. -/
theorem range_of_answers (h : gen.Answers typicalExtra least below g words n g')
    (hw : words ≤ patience) : gen.range typicalExtra least below g = (n, g') := by
  have hpatience : patience ≤ unbounded := by decide
  cases h with
  | limitless hopen hsteps =>
    rw [range, if_pos hopen.ge, steps_of_takesSteps hsteps (hw.trans hpatience)]
  | sole hlt hle => rw [range, if_neg (Nat.not_le.mpr hlt), if_pos hle]
  | drawn hlt hle hfirst =>
    rw [range, if_neg (Nat.not_le.mpr hlt), if_neg (Nat.not_le.mpr hle),
      uniform_of_firstAccepted hfirst hw]

/-- The source keeps what is promised, whatever it is given. Nothing is promised of an end beyond
all counts. -/
theorem keepsInterval_range (gen : BitGenerator γ) (typicalExtra least below : Nat) (g : γ) :
    KeepsInterval least below g (gen.range typicalExtra least below g).1
      (gen.range typicalExtra least below g).2 := by
  unfold range
  split
  next hopen =>
    rcases hopen.eq_or_lt with hopen | hgt
    · exact keepsInterval_limitless hopen.symm _ _ _
    · exact ⟨fun _ h => by omega, fun h _ => by omega, fun h => by omega⟩
  next hlt =>
    have hlt := Nat.lt_of_not_le hlt
    split
    next hle => exact keepsInterval_sole hlt g hle
    next hle =>
      have hle := Nat.lt_of_not_le hle
      exact keepsInterval_add hlt hle
        (uniform_lt gen.bits64 (sub_pos_of_cappedAdd_lt hlt hle) patience g) _ _

end BitGenerator

/-! ## Rounding -/

/-- A quotient that is at most `k` is not rounded to more: where something is left over, `b * k` is
not reached. -/
theorem nearestEven_le {a b k : Nat} (hb : 0 < b) (h : a ≤ b * k) : nearestEven a b ≤ k := by
  have hdown : a / b ≤ k := Nat.div_le_of_le_mul h
  have hsplit := Nat.div_add_mod a b
  simp only [nearestEven]
  split
  · exact hdown
  · rcases hdown.lt_or_eq with hlt | rfl
    · exact hlt
    · omega

/-- What has no more than 53 binary digits is not rounded. -/
theorem toDouble_of_le {n : Nat} (h : n ≤ 2 ^ 53) : toDouble n = n := by
  rcases h.lt_or_eq with hlt | rfl
  · have hlog : n.log2 - 52 = 0 := by
      rcases Nat.eq_zero_or_pos n with rfl | hpos
      · rfl
      · have := (Nat.log2_lt hpos.ne').mpr hlt
        omega
    simp only [toDouble, nearestEven, hlog, Nat.shiftLeft_zero, Nat.mod_one, Nat.div_one,
      Nat.mul_one]
    rw [if_pos (.inl (by decide))]
  · decide

/-- A mean that is not rounded leaves words that end the steps. A greater one may be rounded to the
same number as its successor, and then no word ends them. -/
theorem stepThreshold_lt {mean : Nat} (h : mean < 2 ^ 53) : stepThreshold mean < 2 ^ 64 := by
  have hshare : nearestEven (mean <<< 53) (mean + 1) ≤ 2 ^ 53 - 1 := by
    apply nearestEven_le (Nat.succ_pos mean)
    rw [Nat.shiftLeft_eq]
    omega
  simp only [stepThreshold]
  rw [toDouble_of_le h.le, toDouble_of_le (show mean + 1 ≤ 2 ^ 53 from h), Nat.shiftLeft_eq]
  omega

/-! ## Accepted words -/

/-- The accepted words that yield the number `k` below `n`. -/
def wordsFor (width n k : Nat) : Set (BitVec width) := {v | accepts n v = true ∧ highHalf n v = k}

variable {width n k : Nat}

/-- The accepted part of every interval is not longer than the interval. -/
theorem shiftLeft_le_two_pow (h : n < 2 ^ width) :
    n * 2 ^ (width - 1 - n.log2) ≤ 2 ^ width := by
  rcases Nat.eq_zero_or_pos n with rfl | hpos
  · simp
  · have hlog : n.log2 < width := (Nat.log2_lt hpos.ne').mpr h
    calc n * 2 ^ (width - 1 - n.log2)
        ≤ 2 ^ (n.log2 + 1) * 2 ^ (width - 1 - n.log2) :=
          Nat.mul_le_mul_right _ Nat.lt_log2_self.le
      _ = 2 ^ width := by
          rw [← Nat.pow_add]
          congr 1
          omega

/-- A word is accepted for a number when its product lies in the accepted part of the interval that
belongs to the number. -/
theorem mem_wordsFor (hpos : 0 < n) (h : n < 2 ^ width) {v : BitVec width} :
    v ∈ wordsFor width n k ↔ k * 2 ^ width ≤ v.toNat * n ∧
      v.toNat * n < k * 2 ^ width + n * 2 ^ (width - 1 - n.log2) := by
  have hzone := shiftLeft_le_two_pow h
  have hzone' : 0 < n * 2 ^ (width - 1 - n.log2) := Nat.mul_pos hpos (Nat.two_pow_pos _)
  have hmod := Nat.mod_lt (v.toNat * n) (Nat.two_pow_pos width)
  have hdiv := Nat.div_add_mod (v.toNat * n) (2 ^ width)
  change accepts n v = true ∧ highHalf n v = k ↔ _
  simp only [accepts, acceptanceZone, highHalf, decide_eq_true_eq, Nat.shiftLeft_eq, Nat.one_mul,
    Nat.shiftRight_eq_div_pow]
  rw [Nat.mul_comm] at hdiv
  constructor
  · rintro ⟨haccepts, rfl⟩
    omega
  · rintro ⟨hle, hlt⟩
    have hk : v.toNat * n / 2 ^ width = k := by
      refine Nat.div_eq_of_lt_le hle ?_
      rw [Nat.succ_mul]
      omega
    rw [hk] at hdiv
    exact ⟨by omega, hk⟩

theorem add_mul_ceilDiv (hpos : 0 < n) (a m : Nat) : (a + n * m) ⌈/⌉ n = a ⌈/⌉ n + m := by
  rw [Nat.ceilDiv_eq_add_pred_div, Nat.ceilDiv_eq_add_pred_div,
    show a + n * m + n - 1 = a + n - 1 + n * m by omega, Nat.add_mul_div_left _ _ hpos]

/-- The words of a number are consecutive. The products in the accepted part are told by the words
alone, and no accepted part reaches beyond the next multiple of the number of words. -/
theorem toNat_image_wordsFor (h : n < 2 ^ width) (hk : k < n) :
    BitVec.toNat '' wordsFor width n k =
      Finset.Ico (k * 2 ^ width ⌈/⌉ n) (k * 2 ^ width ⌈/⌉ n + 2 ^ (width - 1 - n.log2)) := by
  have hpos : 0 < n := Nat.zero_lt_of_lt hk
  have hends : ∀ v : Nat, k * 2 ^ width ≤ v * n ∧
      v * n < k * 2 ^ width + n * 2 ^ (width - 1 - n.log2) ↔
        k * 2 ^ width ⌈/⌉ n ≤ v ∧ v < k * 2 ^ width ⌈/⌉ n + 2 ^ (width - 1 - n.log2) := by
    intro v
    rw [Nat.mul_comm v n, ← ceilDiv_le_iff_le_mul hpos, ← not_le, ← not_le,
      ← ceilDiv_le_iff_le_mul hpos, add_mul_ceilDiv hpos]
  ext m
  rw [Set.mem_image, Finset.coe_Ico, Set.mem_Ico]
  constructor
  · rintro ⟨v, hv, rfl⟩
    exact (hends _).mp ((mem_wordsFor hpos h).mp hv)
  · intro hm
    have hm := (hends m).mpr hm
    have hbound : m < 2 ^ width := by
      have hzone := shiftLeft_le_two_pow h
      have hnext : (k + 1) * 2 ^ width ≤ n * 2 ^ width := Nat.mul_le_mul_right _ hk
      rw [Nat.succ_mul] at hnext
      refine Nat.lt_of_mul_lt_mul_right (a := n) ?_
      rw [Nat.mul_comm (2 ^ width) n]
      omega
    have hto : (BitVec.ofNat width m).toNat = m := by
      rw [BitVec.toNat_ofNat, Nat.mod_eq_of_lt hbound]
    exact ⟨BitVec.ofNat width m, (mem_wordsFor hpos h).mpr (by rwa [hto]), hto⟩

/-- Every number below `n` has the same number of words. -/
theorem ncard_wordsFor (h : n < 2 ^ width) (hk : k < n) :
    (wordsFor width n k).ncard = 2 ^ (width - 1 - n.log2) := by
  rw [← Set.ncard_image_of_injective _ (fun _ _ => BitVec.eq_of_toNat_eq),
    toNat_image_wordsFor h hk, Set.ncard_coe_finset, Nat.card_Ico, Nat.add_sub_cancel_left]

/-! ## What a source over a bit generator answers -/

/-- Whatever the bit generator yields, an answer to a request for a count keeps what is promised,
takes no word where there is no choice, and is the answer of the source if it takes no more than
`patience` words. The source keeps what is promised in any case, and shuffling leaves a permutation.
Every count of an interval is the answer to the same number of accepted words. -/
theorem RandomSource.ofBits_honours (gen : BitGenerator γ) (typicalExtra : Nat) :
    (∀ {least below words n : Nat} {g g' : γ}, gen.Answers typicalExtra least below g words n g' →
      KeepsInterval least below g n g' ∧ (below < unbounded → below ≤ least + 1 → words = 0) ∧
        (words ≤ patience → (ofBits gen typicalExtra).range least below g = (n, g'))) ∧
    (∀ (least below : Nat) (g : γ), KeepsInterval least below g
      ((ofBits gen typicalExtra).range least below g).1
      ((ofBits gen typicalExtra).range least below g).2) ∧
    (∀ {α : Type} (l : List α) (g : γ), ((ofBits gen typicalExtra).shuffle l g).1.Perm l) ∧
    ∀ {least below n : Nat}, below < unbounded → least ≤ n → n < below →
      {v : BitVec 64 | accepts (below - least) v = true ∧
        least + highHalf (below - least) v = n}.ncard = 2 ^ (63 - (below - least).log2) := by
  refine ⟨fun h => ⟨h.keepsInterval.1, h.keepsInterval.2, BitGenerator.range_of_answers h⟩,
    gen.keepsInterval_range typicalExtra, fun l g => shuffle_perm _ l g, ?_⟩
  intro least below n hlt hle hn
  have hbound : below - least < 2 ^ 64 := by
    have : unbounded < 2 ^ 64 := by decide
    omega
  have hwords : {v : BitVec 64 | accepts (below - least) v = true ∧
      least + highHalf (below - least) v = n} = wordsFor 64 (below - least) (n - least) :=
    Set.ext fun v => and_congr_right fun _ => by omega
  rw [hwords, ncard_wordsFor hbound (by omega)]

/-- A number from three to eight for which a word is refused before the next one is accepted. -/
theorem RandomSource.ofBits_honours_refused :
    ∃ n g', SplitMix.generator.Answers defaultTypicalExtra 3 9 ⟨11⟩ 2 n g' ∧ (3 ≤ n ∧ n < 9) ∧
      (ofBits SplitMix.generator defaultTypicalExtra).range 3 9 ⟨11⟩ = (n, g') ∧
      {v : BitVec 64 | accepts 6 v = true ∧ 3 + highHalf 6 v = 8}.ncard = 2 ^ 61 := by
  have hanswers : SplitMix.generator.Answers defaultTypicalExtra 3 9 ⟨11⟩ 2 _ _ :=
    .drawn (by decide) (by decide) (.refused (by decide +kernel) (.accepted (by decide +kernel)))
  obtain ⟨hanswer, -, -, hwords⟩ :=
    RandomSource.ofBits_honours SplitMix.generator defaultTypicalExtra
  obtain ⟨hkeeps, -, hrange⟩ := hanswer hanswers
  refine ⟨_, _, hanswers, hkeeps.mem (by decide) (by decide), hrange (by decide), ?_⟩
  have hlog : Nat.log2 (9 - 3) = 2 := by decide
  have := hwords (show 9 < unbounded by decide) (show 3 ≤ 8 by decide) (by decide)
  rwa [hlog] at this

end Exemplar
