import Exemplar.Proofs.Emission.Exact
import Exemplar.Proofs.Emission.Failure
import Exemplar.Random.Bits

/-!
# What a search comes to

A search fails at once, before any random choice, when the range of lengths that is asked for
misses the lengths of the tree. Otherwise it finds a string, or it tells of a length that was drawn
in vain, or of a leaf that has no characters. The length that it tells of lies in both ranges, as
the drawn lengths do.

Where the shortest strings of the tree are too long to be counted, nothing is left to be drawn but
`unbounded` itself, out of an interval that is empty. A source that answers every empty interval by
its least count answers this one by `unbounded`. The source over a bit generator never exceeds the
counts, and tells of a length below the shortest one there.

## Main definitions

* `RandomSource.YieldsLeast`: every empty interval is answered by its least count

## Main results

* `Tree.search_of_clip_error`: the range misses the lengths
* `Tree.mem_of_search_infeasible`: the length that is told lies in both ranges
* `Tree.search_classified`: all that a search can come to
* `Tree.search_ofBits_uncountable`: what a source over a bit generator makes of strings that are too
  long to be counted
-/

namespace Exemplar

/-! ## Empty intervals -/

namespace RandomSource

variable {σ : Type} {source : RandomSource σ}

/-- The source answers every empty interval of counts by its least count. -/
def YieldsLeast (source : RandomSource σ) : Prop :=
  ∀ (least below : Nat) (s : σ), below ≤ least → least ≤ unbounded →
    (source.range least below s).1 = least

/-- Any source answers those below `unbounded` in this way, so that a single one is left. -/
theorem yieldsLeast_iff :
    source.YieldsLeast ↔ ∀ s, (source.range unbounded unbounded s).1 = unbounded := by
  constructor
  · intro h s
    exact h unbounded unbounded s (Nat.le_refl _) (Nat.le_refl _)
  · intro h least below s hempty hleast
    rcases Nat.lt_or_ge below unbounded with hlt | hge
    · exact source.range_empty s hempty hlt
    · obtain rfl : below = unbounded := by omega
      obtain rfl : least = unbounded := by omega
      exact h s

/-- The source that follows prescribed answers does so. -/
theorem yieldsLeast_prescribed : prescribed.YieldsLeast := by
  rw [yieldsLeast_iff]
  intro answers
  simp only [prescribed]
  split
  · exact if_neg fun h => Nat.not_lt.mpr h.1 h.2
  · rfl

/-- A source over a bit generator has no answer beyond the counts, not even where nothing else is
left. -/
theorem range_ofBits_unbounded {γ : Type} (gen : BitGenerator γ) (typicalExtra : Nat) (s : γ) :
    ((ofBits gen typicalExtra).range unbounded unbounded s).1 = unbounded - 1 := by
  simp only [ofBits, BitGenerator.range]
  rw [if_pos (Nat.le_refl _)]
  simp only [cappedAdd]
  omega

end RandomSource

/-! ## Lengths that are drawn -/

namespace Emitter

variable {σ : Type} {source : RandomSource σ} {lengths : Extent} {n : Nat}

/-- A length that is drawn is one of the lengths, if they can be counted, or if the source answers
empty intervals by their least counts. -/
theorem Draws.mem (h : Draws source lengths n)
    (hleast : lengths.least < unbounded ∨ source.YieldsLeast) : n ∈ lengths := by
  obtain ⟨s, rfl⟩ := h
  have hends := lengths.least_le_most
  rcases Nat.lt_or_ge lengths.least unbounded with hsmall | hlarge
  · have hdrawn := source.range_mem s (lt_justAbove_of_le hsmall hends) hsmall
    exact ⟨hdrawn.1, le_of_lt_justAbove hdrawn.2⟩
  · have hmost := lengths.most_le_unbounded
    have hbelow : justAbove lengths.most = unbounded := by
      simp only [justAbove, cappedAdd]
      omega
    have hyields := hleast.resolve_left (by omega)
    rw [hbelow, hyields _ _ s (by omega) (by omega)]
    exact ⟨Nat.le_refl _, hends⟩

end Emitter

/-! ## Searches in trees -/

namespace Tree

variable {σ : Type} {source : RandomSource σ} {alphabet : Alphabet} {t : Tree} {range : Extent}
  {s : σ} {n : Nat}

/-- Where the range misses the lengths of the tree, the search fails before any random choice. -/
theorem search_of_clip_error {reason : LengthError} (h : t.length.clip range = .error reason) :
    (t.emitter source alphabet).search source range s = (⟨[], .error (.length reason)⟩, s) := by
  simp only [Emitter.search, length_emitter, h]

/-- The search tells that the range misses the lengths just where it does. What an emission fails
with is no reason that tells of a length in this way. -/
theorem search_error_iff_clip {reason : LengthError} (hreason : ∀ n, reason ≠ .infeasible n) :
    ((t.emitter source alphabet).search source range s).1.result = .error (.length reason) ↔
      t.length.clip range = .error reason := by
  constructor
  · intro h
    rcases Emitter.search_error h with
      ⟨reason', hclip, hx⟩ | ⟨lengths, -, ⟨n, -, hx⟩ | ⟨n, -, hx, -⟩⟩
    · rw [length_emitter] at hclip
      rw [hclip, EmissionError.length.inj hx]
    · exact absurd (EmissionError.length.inj hx) (hreason n)
    · generalize hx' : EmissionError.length reason = x at hx
      cases blames_of_canFail hx with
      | length n => exact absurd (EmissionError.length.inj hx') (hreason n)
      | leaf => cases hx'
  · intro h
    rw [search_of_clip_error h]

/-- The length that a search tells of lies in the range and among the lengths of the tree, if the
lengths that both have in common can be counted, or if the source answers empty intervals by their
least counts. -/
theorem mem_of_search_infeasible
    (h : ((t.emitter source alphabet).search source range s).1.result = .error (.infeasible n))
    (hdrawn : max t.length.least range.least < unbounded ∨ source.YieldsLeast) :
    n ∈ range ∧ n ∈ t.length := by
  rcases Emitter.search_error h with ⟨reason, hclip, hx⟩ | ⟨lengths, hclip, hcase⟩
  · rw [length_emitter, Extent.clip_eq_error] at hclip
    rcases hclip with ⟨-, rfl⟩ | ⟨-, rfl⟩
    · cases hx
    · cases hx
  · rw [length_emitter] at hclip
    rcases hcase with ⟨m, hmisses, hx⟩ | ⟨m, -, -, hother⟩
    · obtain rfl : n = m := LengthError.infeasible.inj (EmissionError.length.inj hx)
      have hn : n ∈ lengths := hmisses.1.mem (by rwa [(Extent.ends_of_clip hclip).1])
      exact (Extent.mem_of_mem_clip hclip hn).symm
    · cases hother

/-- What a search comes to, with a source that answers empty intervals by their least counts. It
tells that the range lies below or above the lengths of the tree just where it does, and makes no
random choice then, so that nothing is put on record. Otherwise it finds a string, or tells of a
length that lies in the range and among the lengths of the tree, or of a leaf of the tree that has
no characters. -/
theorem search_classified (t : Tree) (alphabet : Alphabet) (target : Extent) {σ : Type}
    {source : RandomSource σ} (hsource : source.YieldsLeast) (s : σ) :
    let result := ((t.emitter source alphabet).search source target s).1.result
    (∀ n, result = .error (.length (.belowLeast n)) ↔
      target.most < t.length.least ∧ n = t.length.least) ∧
    (∀ n, result = .error (.length (.aboveMost n)) ↔
      t.length.most < target.least ∧ n = t.length.most) ∧
    (target.most < t.length.least ∨ t.length.most < target.least → ∀ record,
      ((t.emitter source.recorded alphabet).search source.recorded target (s, record)).2 =
        (s, record)) ∧
    (t.length.least ≤ target.most → target.least ≤ t.length.most →
      (∃ w, result = .ok w) ∨
      (∃ n, result = .error (.infeasible n) ∧ n ∈ target ∧ n ∈ t.length) ∨
      ∃ cls m, t.HasNode (.leaf cls m) ∧ (cls.resolve alphabet).isEmpty = true ∧
        result = .error (.emptyClass (Tree.leaf cls m).describe)) := by
  intro result
  refine ⟨fun n => ?_, fun n => ?_, fun hmiss record => ?_, fun hbelow habove => ?_⟩
  · rw [search_error_iff_clip (by simp), Extent.clip_eq_error]
    simp
  · rw [search_error_iff_clip (by simp), Extent.clip_eq_error]
    simp
  · obtain ⟨reason, hreason⟩ : ∃ reason, t.length.clip target = .error reason := by
      rcases hmiss with h | h
      · exact ⟨_, Extent.clip_eq_error.mpr (.inl ⟨h, rfl⟩)⟩
      · exact ⟨_, Extent.clip_eq_error.mpr (.inr ⟨h, rfl⟩)⟩
    rw [search_of_clip_error hreason]
  · cases hresult : result with
    | ok w => exact .inl ⟨w, rfl⟩
    | error x =>
      right
      rcases Emitter.search_error hresult with ⟨reason, hclip, -⟩ | ⟨lengths, -, hcase⟩
      · rw [length_emitter, Extent.clip_eq_error] at hclip
        omega
      rcases hcase with ⟨n, -, rfl⟩ | ⟨n, -, hx, hother⟩
      · exact .inl ⟨n, rfl, mem_of_search_infeasible hresult (.inr hsource)⟩
      · cases blames_of_canFail hx with
        | length n => cases hother
        | leaf hnode hempty => exact .inr ⟨_, _, hnode, hempty, rfl⟩

/-- The strings of `^a{18446744073709551614}a$` are too long to be counted. With prescribed answers,
two characters are told to be too few; where any number will do, the length that is told is a length
of the tree. -/
theorem search_classified_prescribed : ∃ c, compile {} "^a{18446744073709551614}a$" = .ok c ∧
    RandomSource.prescribed.YieldsLeast ∧
    (c.generator.search .prescribed (.atMost 2) []).1.result =
      .error (.length (.belowLeast unbounded)) ∧
    ∃ n, (c.generator.search .prescribed .any []).1.result = .error (.infeasible n) ∧
      n ∈ Extent.any ∧ n ∈ c.generator.root.length := by
  obtain ⟨c, hc, htest⟩ := exists_of_compile
    (show ((compile {} "^a{18446744073709551614}a$").toOption.any fun c =>
      decide (c.generator.root.length.least = unbounded ∧
        (c.generator.search .prescribed .any []).1.result = .error (.infeasible unbounded))) = true
      by decide +kernel)
  obtain ⟨hleast, hresult⟩ := of_decide_eq_true htest
  have hyields := RandomSource.yieldsLeast_prescribed
  refine ⟨c, hc, hyields, ?_, ?_⟩
  · refine ((search_classified c.generator.root _ (.atMost 2) hyields []).1 unbounded).mpr
      ⟨?_, hleast.symm⟩
    rw [hleast]
    decide
  · have hany :=
      (search_classified c.generator.root c.generator.options.alphabet .any hyields []).2.2.2
    rcases hany (by rw [hleast]; decide) (Nat.zero_le _) with ⟨w, h⟩ | h | ⟨cls, m, -, -, h⟩
    · cases hresult.symm.trans h
    · exact h
    · cases hresult.symm.trans h

/-! ## Strings that are too long to be counted -/

/-- No string has a length that is none of the lengths of the tree. -/
theorem emit_of_not_mem (h : n ∉ t.length) :
    (t.emitter source alphabet).emit n s = .error (.infeasible n) s := by
  rw [← length_emitter source alphabet] at h
  cases t with
  | leaf cls m =>
    have hout : n ∉ m.occurs := h
    simp only [emitter, Emitter.ofLeaf, if_pos hout]
    rfl
  | sequence parts m =>
    simp only [emitter, Emitter.repeated] at h ⊢
    rw [if_pos h]
    rfl
  | choice members m =>
    simp only [emitter, Emitter.repeated] at h ⊢
    rw [if_pos h]
    rfl

/-- Where the source always draws a length that is none of the lengths of the tree, the search tells
of this length. -/
theorem search_of_draws_outside {lengths : Extent} (hclip : t.length.clip range = .ok lengths)
    (hdraws : ∀ m, Emitter.Draws source lengths m → m = n) (hn : n ∉ t.length) :
    ((t.emitter source alphabet).search source range s).1.result = .error (.infeasible n) := by
  have hfails {m : Nat} (hm : Emitter.Draws source lengths m) (s₁ : σ) :
      (t.emitter source alphabet).emit m s₁ = .error (.infeasible n) s₁ :=
    hdraws m hm ▸ emit_of_not_mem (hdraws m hm ▸ hn)
  cases hresult : ((t.emitter source alphabet).search source range s).1.result with
  | ok w =>
    simp only [Emitter.search, length_emitter, hclip] at hresult
    obtain ⟨s₀, s₁, s₂, he⟩ := Emitter.attempt_ok hresult
    rw [hfails ⟨s₀, rfl⟩] at he
    cases he
  | error x =>
    rcases Emitter.search_error hresult with ⟨reason, hclip', -⟩ | ⟨lengths', hclip', hcase⟩
    · rw [length_emitter, hclip] at hclip'
      cases hclip'
    rw [length_emitter, hclip] at hclip'
    obtain rfl := Except.ok.inj hclip'
    rcases hcase with ⟨m, hmisses, rfl⟩ | ⟨m, hm, ⟨s₁, s₂, hx⟩, hother⟩
    · rw [hdraws m hmisses.1]
    · rw [hfails hm] at hx
      cases hx
      cases hother

/-- A source over a bit generator draws a length below the shortest one where the strings of the
tree are too long to be counted, as those of `^a{18446744073709551614}a$` are. So the search tells
of this length, whatever bits are generated. -/
theorem search_ofBits_uncountable {γ : Type} (gen : BitGenerator γ) (typicalExtra : Nat) (s : γ)
    (hleast : t.length.least = unbounded) (hrange : range.most = unbounded) :
    ((t.emitter (.ofBits gen typicalExtra) alphabet).search (.ofBits gen typicalExtra)
      range s).1.result = .error (.infeasible (unbounded - 1)) := by
  have hends := t.length.least_le_most
  have hmost := t.length.most_le_unbounded
  have hmem : unbounded ∈ t.length := ⟨by omega, by omega⟩
  have hrangeEnds := range.least_le_most
  obtain ⟨lengths, hclip⟩ := Extent.clip_of_mem hmem ⟨by omega, hrange.ge⟩
  obtain ⟨hl, hm⟩ := Extent.ends_of_clip hclip
  refine search_of_draws_outside hclip ?_ fun h => ?_
  · rintro m ⟨s₀, rfl⟩
    have hbelow : justAbove lengths.most = unbounded := by
      simp only [justAbove, cappedAdd]
      omega
    rw [hbelow, show lengths.least = unbounded by omega]
    exact RandomSource.range_ofBits_unbounded gen typicalExtra s₀
  · have := (Extent.mem_iff.mp h).1
    have : 0 < unbounded := by decide
    omega

end Tree

end Exemplar
