import Exemplar.Proofs.Emission.Verdict
import Exemplar.Proofs.Intervals
import Exemplar.Proofs.Lengths

/-!
# Lengths without gaps

An emitter makes its choices blindly: how often something occurs, how a length is shared out, and
which member of a choice is tried first. None of them can be wrong where the lengths have no gaps,
that is, where every length of a node is made up by some number of occurrences, every length of a
choice is one of a member, and every leaf that may occur has characters. Then whatever the source
answers, a string is found at the first attempt. Whether there are gaps can be computed: numbers of
occurrences leave none if they leave none behind the least one, and the members of a choice leave
none if they leave none just above a member.

## Main definitions

* `Extent.HasNoGap occurs once`: every length is made up by some number of occurrences
* `Extent.Covered`: every length of a hull is one of the extents
* `Tree.IsGapless`: a node without gaps, which is decidable for the classes of an alphabet

## Main results

* `Extent.hasNoGap_iff`, `Extent.covered_iff`: what is left to be checked
* `Tree.not_canFail_of_gapless`: the emitter of a tree without gaps never fails
* `Generator.search_of_gapless`: a string is found at the first attempt
-/

namespace Exemplar

namespace Extent

/-! ## Numbers of occurrences -/

/-- Every length of so many occurrences is made up by some number of them. -/
def HasNoGap (occurs once : Extent) : Prop :=
  ∀ n ∈ occurs.mul once, n < unbounded →
    ∃ k : Nat, occurs.Admits k ∧ k * once.least ≤ n ∧ (n : ℕ∞) ≤ k * once.limit

section HasNoGap

variable {occurs once : Extent} {n k : Nat}

theorem le_mul_limit (hopen : once.most ≠ unbounded) :
    (n : ℕ∞) ≤ k * once.limit ↔ n ≤ k * once.most := by
  rw [limit, if_neg hopen]
  exact_mod_cast Iff.rfl

/-- One occurrence without limit makes up every length, and no occurrence only the length zero. -/
theorem le_mul_limit_of_open (hopen : once.most = unbounded) :
    (n : ℕ∞) ≤ k * once.limit ↔ (k = 0 → n = 0) := by
  rw [limit, if_pos hopen]
  rcases Nat.eq_zero_or_pos k with rfl | hk
  · simp
  · rw [ENat.mul_top (by exact_mod_cast hk.ne')]
    simp [hk.ne']

/-- So many occurrences as there are at least are not too long, unless the length is too short. -/
theorem least_mul_least_le (hin : n ∈ occurs.mul once) (hn : n < unbounded) :
    occurs.least * once.least ≤ n := by
  have := hin.1
  rw [least_mul, cappedMul] at this
  omega

/-- Some number of occurrences is not too short for a length. Without limit, as many occurrences as
characters are enough, unless all of them are empty. -/
theorem exists_admits_of_mem (hin : n ∈ occurs.mul once) (hn : n < unbounded) :
    ∃ j, occurs.Admits (occurs.least + j) ∧ n ≤ (occurs.least + j) * once.most := by
  have hmost := hin.2
  rw [most_mul, cappedMul] at hmost
  by_cases hopen : occurs.most = unbounded
  · refine ⟨n, ⟨Nat.le_add_right .., .inl hopen⟩, ?_⟩
    rcases Nat.eq_zero_or_pos once.most with hzero | hpos
    · rw [hzero, Nat.mul_zero] at hmost
      omega
    · exact (Nat.le_add_left n _).trans (Nat.le_mul_of_pos_right _ hpos)
  · refine ⟨occurs.most - occurs.least, ?_⟩
    rw [Nat.add_sub_cancel' occurs.least_le_most]
    exact ⟨occurs.admits_most, by omega⟩

/-- If there is no gap between what the least number of occurrences makes up and what the next one
does, there is none between any two numbers that follow each other. -/
theorem add_mul_least_le {j : Nat}
    (hnext : (occurs.least + 1) * once.least ≤ occurs.least * once.most + 1) :
    (occurs.least + (j + 1)) * once.least ≤ (occurs.least + j) * once.most + 1 := by
  have hj : j * once.least ≤ j * once.most := Nat.mul_le_mul_left j once.least_le_most
  calc (occurs.least + (j + 1)) * once.least
      = (occurs.least + 1) * once.least + j * once.least := by
        rw [← Nat.add_mul, Nat.add_assoc, Nat.add_comm 1 j]
    _ ≤ occurs.least * once.most + 1 + j * once.most := Nat.add_le_add hnext hj
    _ = (occurs.least + j) * once.most + 1 := by rw [Nat.add_mul, Nat.add_right_comm]

/-- Numbers of occurrences leave no gap if the least one leaves none to the next one. The induction
goes down from any number that is not too short to the first one that is not too long. -/
theorem hasNoGap_of_next (hclosed : once.most ≠ unbounded)
    (hnext : (occurs.least + 1) * once.least ≤ occurs.least * once.most + 1) :
    occurs.HasNoGap once := by
  intro n hin hn
  obtain ⟨j, hadmits, hle⟩ := exists_admits_of_mem hin hn
  simp only [le_mul_limit hclosed]
  induction j with
  | zero => exact ⟨occurs.least, hadmits, least_mul_least_le hin hn, hle⟩
  | succ j ih =>
    rcases Nat.lt_or_ge ((occurs.least + j) * once.most) n with hlt | hge
    · exact ⟨occurs.least + (j + 1), hadmits, (add_mul_least_le hnext).trans hlt, hle⟩
    · refine ih ⟨Nat.le_add_right .., ?_⟩ hge
      exact hadmits.2.imp_right fun h => by omega

/-- A number of occurrences that is the only one leaves no gap. -/
theorem hasNoGap_of_least_eq_most (heq : occurs.least = occurs.most) : occurs.HasNoGap once := by
  intro n hin hn
  refine ⟨occurs.least, occurs.admits_least, least_mul_least_le hin hn, ?_⟩
  have hmost := hin.2
  rw [most_mul, cappedMul, ← heq] at hmost
  by_cases hopen : once.most = unbounded
  · rw [le_mul_limit_of_open hopen]
    intro hzero
    rw [hzero, Nat.zero_mul] at hmost
    omega
  · rw [le_mul_limit hopen]
    omega

/-- Occurrences without limit leave no gap if there is one at least, or if a single one makes up
every length. -/
theorem hasNoGap_of_open (hopen : once.most = unbounded)
    (h : 0 < occurs.least ∨ once.least ≤ 1) : occurs.HasNoGap once := by
  intro n hin hn
  by_cases hleast : 0 < occurs.least
  · refine ⟨occurs.least, occurs.admits_least, least_mul_least_le hin hn, ?_⟩
    rw [le_mul_limit_of_open hopen]
    omega
  rcases Nat.eq_zero_or_pos n with rfl | hpos
  · exact ⟨0, ⟨by omega, .inr (Nat.zero_le _)⟩, by simp, by simp⟩
  · have hone : 0 < occurs.most := by
      refine Nat.pos_of_ne_zero fun hzero => ?_
      have hmost := hin.2
      rw [most_mul, cappedMul, hzero, Nat.zero_mul] at hmost
      omega
    refine ⟨1, ⟨by omega, .inr hone⟩, by omega, ?_⟩
    rw [le_mul_limit_of_open hopen]
    exact nofun

/-- Otherwise a single character is out of reach. -/
theorem HasNoGap.of_open (h : occurs.HasNoGap once) (hopen : once.most = unbounded)
    (hne : occurs.least ≠ occurs.most) : 0 < occurs.least ∨ once.least ≤ 1 := by
  by_contra hnot
  rw [not_or, Nat.not_lt, Nat.le_zero, Nat.not_le] at hnot
  have hends := occurs.least_le_most
  have hone : 1 ∈ occurs.mul once := by
    rw [mem_iff, least_mul, most_mul, cappedMul, cappedMul, hnot.1, hopen]
    have hpos : 0 < unbounded := by decide
    have := Nat.mul_pos (show 0 < occurs.most by omega) hpos
    omega
  obtain ⟨k, -, hleast, hlimit⟩ := h 1 hone (by decide)
  have hlimit := (le_mul_limit_of_open hopen).mp (by exact_mod_cast hlimit)
  have hk : 0 < k := Nat.pos_of_ne_zero fun hk => absurd (hlimit hk) (by decide)
  have := Nat.le_mul_of_pos_left once.least hk
  omega

/-- Otherwise one character more than the least number of occurrences can have is out of reach. -/
theorem HasNoGap.of_closed (h : occurs.HasNoGap once) (hclosed : once.most ≠ unbounded)
    (hne : occurs.least ≠ occurs.most) (hsmall : occurs.least * once.most + 1 < unbounded) :
    (occurs.least + 1) * once.least ≤ occurs.least * once.most + 1 := by
  by_contra hnot
  have hends := occurs.least_le_most
  have honce := once.least_le_most
  have hpos : 0 < once.most := by
    refine Nat.pos_of_ne_zero fun hzero => hnot ?_
    rw [show once.least = 0 by omega, Nat.mul_zero]
    exact Nat.zero_le _
  have hmost : occurs.least * once.most + 1 ≤ occurs.most * once.most :=
    calc occurs.least * once.most + 1 ≤ occurs.least * once.most + once.most := by omega
      _ = (occurs.least + 1) * once.most := (Nat.succ_mul ..).symm
      _ ≤ occurs.most * once.most := Nat.mul_le_mul_right _ (by omega)
  have hleast : occurs.least * once.least ≤ occurs.least * once.most := Nat.mul_le_mul_left _ honce
  obtain ⟨k, hk, hkl, hkm⟩ := h (occurs.least * once.most + 1)
    ⟨by rw [least_mul, cappedMul]; omega, by rw [most_mul, cappedMul]; omega⟩ hsmall
  rw [le_mul_limit hclosed] at hkm
  rcases Nat.lt_or_ge occurs.least k with hlt | hge
  · have := Nat.mul_le_mul_right once.least (show occurs.least + 1 ≤ k from hlt)
    omega
  · have := Nat.mul_le_mul_right once.most hge
    omega

/-- There is no gap if there is only one number of occurrences, or else if there is none behind the
least number of them. -/
theorem hasNoGap_iff : occurs.HasNoGap once ↔ occurs.least = occurs.most ∨
    if once.most = unbounded then 0 < occurs.least ∨ once.least ≤ 1
    else unbounded ≤ occurs.least * once.most + 1 ∨
      (occurs.least + 1) * once.least ≤ occurs.least * once.most + 1 := by
  constructor
  · intro h
    refine or_iff_not_imp_left.mpr fun hne => ?_
    split
    next hopen => exact h.of_open hopen hne
    next hclosed =>
      refine or_iff_not_imp_left.mpr fun hsmall => h.of_closed hclosed hne (Nat.lt_of_not_le hsmall)
  · rintro (heq | h)
    · exact hasNoGap_of_least_eq_most heq
    split at h
    next hopen => exact hasNoGap_of_open hopen h
    next hclosed =>
      rcases h with hlarge | hnext
      · intro n hin hn
        refine ⟨occurs.least, occurs.admits_least, least_mul_least_le hin hn, ?_⟩
        rw [le_mul_limit hclosed]
        omega
      · exact hasNoGap_of_next hclosed hnext

instance : Decidable (occurs.HasNoGap once) := decidable_of_iff _ hasNoGap_iff.symm

/-- Where there is no gap, there are numbers of occurrences to draw from. -/
theorem HasNoGap.occurrences?_ne_none (h : occurs.HasNoGap once) (hleast : occurs.least < unbounded)
    (hn : n < unbounded) (hin : n ∈ occurs.mul once) :
    Emitter.occurrences? occurs once n ≠ none := by
  obtain ⟨k, hk, hl, hm⟩ := h n hin hn
  have hzero : k = 0 → n = 0 := by
    rintro rfl
    simpa using hm
  have hmost : once.most = unbounded ∨ n ≤ k * once.most := by
    by_cases hopen : once.most = unbounded
    · exact .inl hopen
    · exact .inr ((le_mul_limit hopen).mp hm)
  obtain ⟨lowest, highest, hsome, -⟩ :=
    Emitter.occurrences?_of_admits hleast hn hk hzero hl hmost
  rw [hsome]
  exact nofun

end HasNoGap

/-! ## Members of a choice -/

/-- Every length of the hull is one of the extents. -/
def Covered (es : List Extent) : Prop := ∀ n ∈ hullAll es, n < unbounded → ∃ e ∈ es, n ∈ e

/-- Extents cover their hull if each of them is followed by another one, or by nothing. -/
theorem covered_iff {es : List Extent} : Covered es ↔ es ≠ [] ∧
    ∀ e ∈ es, e.most < (hullAll es).most → e.most + 1 < unbounded →
      ∃ e' ∈ es, e.most + 1 ∈ e' := by
  constructor
  · intro h
    refine ⟨?_, fun e he hmost hsmall => h _ ⟨?_, hmost⟩ hsmall⟩
    · rintro rfl
      obtain ⟨e, he, -⟩ := h 0 ⟨Nat.le_refl _, Nat.le_refl _⟩ (by decide)
      cases he
    · have := (admits_hullAll he e.admits_most).1
      omega
  · rintro ⟨hne, h⟩ n hin hn
    obtain ⟨first, hfirst, hleast⟩ := exists_least_hullAll hne
    obtain ⟨hl, hm⟩ := hin
    -- Induction on the length, from the least one.
    induction n, hl using Nat.le_induction with
    | base => exact ⟨first, hfirst, hleast.ge, hleast ▸ first.least_le_most⟩
    | succ n hl ih =>
      obtain ⟨e, he, hen⟩ := ih (by omega) (by omega)
      rcases Nat.lt_or_ge n e.most with hlt | hge
      · exact ⟨e, he, hen.1.trans (Nat.le_succ n), hlt⟩
      · obtain rfl : n = e.most := Nat.le_antisymm hen.2 hge
        exact h e he hm hn

instance (es : List Extent) : Decidable (Covered es) := decidable_of_iff _ covered_iff.symm

end Extent

/-! ## Emitters -/

namespace Emitter

variable {σ : Type} {source : RandomSource σ} {n : Nat} {x : EmissionError}

/-- Where numbers of occurrences leave no gap, an occurrence fails, with one of its lengths. -/
theorem exists_share_of_hasNoGap {occurs : Extent} {once : Emitter σ}
    (hgap : occurs.HasNoGap once.length) (hleast : occurs.least < unbounded) (hn : n < unbounded)
    (hin : n ∈ occurs.mul once.length)
    (h : ((repeated source occurs once).emit n).CanFail x) :
    ∃ k ∈ once.length, k < unbounded ∧ (once.emit k).CanFail x := by
  rcases canFail_repeated h with ⟨-, hcase⟩ | ⟨-, ks, -, hks, rfl, k, hk, hfail⟩
  · exact absurd hcase (not_or.mpr ⟨not_not.mpr hin, hgap.occurrences?_ne_none hleast hn hin⟩)
  · exact ⟨k, hks k hk, lt_of_mem_of_sum_lt hk hn, hfail⟩

end Emitter

/-! ## Trees -/

namespace Tree

/-- The node has no gaps. A leaf that may occur has characters; every length of another node is made
up by some number of occurrences, and every length of an occurrence of a choice is one of a
member. -/
def IsGapless (M : Meaning) : Tree → Prop
  | leaf cls m => (leaf cls m).HasChars M
  | sequence parts m => m.occurs.HasNoGap (.sumAll (lengths parts))
  | choice members m =>
    m.occurs.HasNoGap (.hullAll (lengths members)) ∧ Extent.Covered (lengths members)

instance (alphabet : Alphabet) : DecidablePred (IsGapless (.drawn alphabet)) := fun
  | leaf cls m => inferInstanceAs (Decidable ((leaf cls m).HasChars _))
  | sequence _ m => inferInstanceAs (Decidable (m.occurs.HasNoGap _))
  | choice _ m => inferInstanceAs (Decidable (m.occurs.HasNoGap _ ∧ Extent.Covered _))

variable {σ : Type} {source : RandomSource σ} {alphabet : Alphabet} {t : Tree} {n : Nat}
  {x : EmissionError}

/-- Whatever the source answers, the emitter of a tree without gaps does not fail with one of the
lengths of the tree. Every length that is given to a part is one of its lengths, so no part can fail
first. -/
theorem not_canFail_of_gapless (h : t.Every (IsGapless (.drawn alphabet)))
    (ha : t.Every IsAttainable) (hn : n < unbounded) (hin : n ∈ t.length) :
    ¬ ((t.emitter source alphabet).emit n).CanFail x := by
  intro hfail
  induction t generalizing n with
  | leaf cls m =>
    rw [length_leaf] at hin
    rcases Emitter.canFail_ofLeaf hfail with ⟨hout, -⟩ | ⟨hpos, hempty, -⟩
    · exact hout hin
    · obtain ⟨c, hc⟩ := (every_iff.mp h).1 ((Nat.pos_of_ne_zero hpos).trans_le hin.2)
      rw [Meaning.mem_drawn, CharSet.isEmpty_iff.mp hempty] at hc
      exact CharSet.not_mem_empty hc
  | sequence parts m ih =>
    obtain ⟨hgap, hparts⟩ := every_iff.mp h
    obtain ⟨hleast, hattainable⟩ := every_iff.mp ha
    rw [emitter, emitters_eq_map] at hfail
    rw [length, ← length_sequence_emitters source alphabet] at hin
    obtain ⟨k, hk, hkn, hfail⟩ := Emitter.exists_share_of_hasNoGap
      (length_sequence_emitters source alphabet parts ▸ hgap) hleast hn hin hfail
    rcases canFail_parts hkn hfail with ⟨hout, -⟩ | ⟨ls, hls, rfl, t, l, hshare, hfail⟩
    · rw [← length_sequence_emitters] at hout
      exact hout hk
    · obtain ⟨ht, hl⟩ := List.of_mem_zip hshare
      exact ih t ht (hparts t ht) (hattainable t ht) (lt_of_mem_of_sum_lt hl hkn)
        ((List.forall₂_iff_zip.mp hls).2 hshare) hfail
  | choice members m ih =>
    obtain ⟨⟨hgap, hcovered⟩, hmembers⟩ := every_iff.mp h
    obtain ⟨hleast, hattainable⟩ := every_iff.mp ha
    rw [emitter, emitters_eq_map] at hfail
    rw [length, ← length_choice_emitters source alphabet] at hin
    obtain ⟨k, hk, hkn, hfail⟩ := Emitter.exists_share_of_hasNoGap
      (length_choice_emitters source alphabet members ▸ hgap) hleast hn hin hfail
    rw [length_choice_emitters] at hk
    rcases canFail_members hfail with ⟨hnone, -⟩ | ⟨t, ht, hkt, hfail⟩
    · obtain ⟨e, he, hek⟩ := hcovered k hk hkn
      rw [lengths_eq_map] at he
      obtain ⟨t, ht, rfl⟩ := List.mem_map.mp he
      exact hnone t ht hek
    · exact ih t ht (hmembers t ht) (hattainable t ht) hkn hkt hfail

end Tree

/-! ## Searches -/

namespace Emitter

variable {σ : Type} {source : RandomSource σ} {e : Emitter σ} {lengths range : Extent} {n : Nat}

/-- What is drawn can be counted, if some of the lengths can. -/
theorem Draws.lt_unbounded (h : Draws source lengths n) (hleast : lengths.least < unbounded) :
    n < unbounded := by
  obtain ⟨s, rfl⟩ := h
  have hdrawn := source.range_mem s (lt_justAbove_of_le hleast lengths.least_le_most) hleast
  exact hdrawn.2.trans_le (Nat.min_le_right ..)

/-- Where nothing that is drawn can fail, a string is found at the first attempt. -/
theorem search_of_not_canFail (hclip : e.length.clip range = .ok lengths)
    (h : ∀ n x, Draws source lengths n → ¬ (e.emit n).CanFail x) (s : σ) :
    ∃ w s', e.search source range s = (⟨[], .ok w⟩, s') := by
  simp only [search, hclip, maxAttempts, attempt]
  split
  next w s' _ => exact ⟨w, s', rfl⟩
  next x s' he => exact absurd ⟨_, s', he⟩ (h _ x ⟨s, rfl⟩)

end Emitter

namespace Generator

/-- Whatever the source answers, a search in a tree without gaps finds a string at the first
attempt. -/
theorem search_of_gapless {g : Generator} (hg : g.Arises) {alphabet : Alphabet}
    (hgapless : g.root.Every (Tree.IsGapless (.drawn alphabet)))
    (hleast : g.length.least < unbounded) {target : Extent} (ht : target.least < unbounded)
    (hmeet : ∃ n ∈ target, n ∈ g.length) {σ : Type} (source : RandomSource σ) (s : σ) :
    ∃ w s', (g.root.emitter source alphabet).search source target s = (⟨[], .ok w⟩, s') := by
  obtain ⟨n, hin, hown⟩ := hmeet
  obtain ⟨lengths, hclip⟩ := Extent.clip_of_mem hown hin
  have hsmall : lengths.least < unbounded := by
    rw [(Extent.ends_of_clip hclip).1]
    exact max_lt hleast ht
  rw [length, ← Tree.length_emitter source alphabet] at hclip
  refine Emitter.search_of_not_canFail hclip (fun k x hk => ?_) s
  have hmem := (Extent.mem_of_mem_clip hclip (hk.mem (.inl hsmall))).1
  rw [Tree.length_emitter] at hmem
  exact Tree.not_canFail_of_gapless hgapless hg.attainable (hk.lt_unbounded hsmall) hmem

/-- `^(?:a|bc)+(?:d{1,3}e?)*$` has no gaps, so that a string of seven characters is found at the
first attempt. -/
theorem search_of_gapless_seven : ∃ c, compile {} "^(?:a|bc)+(?:d{1,3}e?)*$" = .ok c ∧
    c.generator.root.Every (Tree.IsGapless (.drawn c.generator.options.alphabet)) ∧
      ∀ {σ : Type} (source : RandomSource σ) (s : σ), ∃ w s',
        c.generator.search source (.exactly 7) s = (⟨[], .ok w⟩, s') := by
  obtain ⟨c, hc, htest⟩ := exists_of_compile
    (show ((compile {} "^(?:a|bc)+(?:d{1,3}e?)*$").toOption.any fun c =>
      decide (c.generator.root.Every (Tree.IsGapless (.drawn c.generator.options.alphabet)) ∧
        c.generator.length.least < unbounded ∧ 7 ∈ c.generator.length)) = true by decide +kernel)
  obtain ⟨hgapless, hleast, hmem⟩ := of_decide_eq_true htest
  exact ⟨c, hc, hgapless, search_of_gapless (.compiled hc) hgapless hleast (by decide)
    ⟨7, by decide, hmem⟩⟩

end Generator

namespace Tree

variable {σ : Type} {source : RandomSource σ} {alphabet : Alphabet} {t : Tree} {target : Extent}
  {s : σ} {w : List Char}

/-- No string is found where the shortest ones cannot be counted, unless it is a leaf that is to
occur so often. -/
theorem search_ne_ok_of_uncountable (hchildren : t.children ≠ [])
    (hleast : t.length.least = unbounded) :
    ((t.emitter source alphabet).search source target s).1.result ≠ .ok w := by
  intro h
  simp only [Emitter.search] at h
  split at h
  · cases h
  obtain ⟨s₀, s₁, s₂, he⟩ := Emitter.attempt_ok h
  generalize (source.range _ _ s₀).1 = n at he
  obtain ⟨-, -, hown⟩ := emitter_sound he
  have hn : n < unbounded := by
    cases t with
    | leaf => exact absurd rfl hchildren
    | sequence parts m => exact ((Emitter.repeated_ensures_length _ _ n).of_ok he).2
    | choice members m => exact ((Emitter.repeated_ensures_length _ _ n).of_ok he).2
  rw [Extent.mem_iff] at hown
  omega

/-- There are no gaps in `^a{18446744073709551614}a$`, and no range without limit misses its
lengths. But its shortest string cannot be counted, so none is found, whatever the source
answers. -/
theorem exists_gapless_not_found : ∃ c, compile {} "^a{18446744073709551614}a$" = .ok c ∧
    c.generator.root.Every (IsGapless (.drawn c.generator.options.alphabet)) ∧
      Extent.any.least < unbounded ∧ (∃ n ∈ Extent.any, n ∈ c.generator.length) ∧
        ∀ {σ : Type} (source : RandomSource σ) (s : σ) (w : List Char),
          (c.generator.search source .any s).1.result ≠ .ok w := by
  obtain ⟨c, hc, htest⟩ := exists_of_compile
    (show ((compile {} "^a{18446744073709551614}a$").toOption.any fun c =>
      decide (c.generator.root.Every (IsGapless (.drawn c.generator.options.alphabet)) ∧
        c.generator.root.length.least = unbounded ∧ unbounded ∈ c.generator.length ∧
        c.generator.root.children.isEmpty = false)) = true by decide +kernel)
  obtain ⟨hgapless, hleast, hmem, hchildren⟩ := of_decide_eq_true htest
  refine ⟨c, hc, hgapless, by decide, ⟨unbounded, by decide, hmem⟩, fun source s w => ?_⟩
  exact search_ne_ok_of_uncountable (List.isEmpty_eq_false_iff.mp hchildren) hleast

end Tree

end Exemplar
