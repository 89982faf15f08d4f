import Exemplar.Emission.Search
import Exemplar.Proofs.Emission.Emitter

/-!
# Searching exactly

A search draws a length and asks for a string of it, again and again while there is none. What it
finds lies in the language of the tree and has a length in the range, and every such string can be
found, at the first attempt. When the shortest strings are out of reach, no length is drawn that
could be relied on. The emitter checks the length itself then.

## Main results

* `Tree.mem_language_of_search`, `Tree.search_sound`: what a search finds is described by the tree
  and has a length in the range
* `Tree.search_complete`: what the tree describes and has a length in the range can be found
-/

namespace Exemplar

namespace Emitter

variable {σ : Type} {source : RandomSource σ} {e : Emitter σ}

/-- What an attempt finds has been yielded for a length that was drawn. Only a failure for want of a
string leads to another attempt. -/
theorem attempt_ok {lengths : Extent} {attempts : Nat} {failed : List Nat} {s : σ} {w : List Char}
    (h : (e.attempt source lengths attempts failed s).1.result = .ok w) :
    ∃ s₀ s₁ s₂,
      e.emit (source.range lengths.least (justAbove lengths.most) s₀).1 s₁ = .ok w s₂ := by
  induction attempts generalizing failed s with
  | zero => cases h
  | succ attempts ih =>
    simp only [attempt] at h
    split at h
    next w' s₂ he =>
      obtain rfl : w' = w := Except.ok.inj h
      exact ⟨_, _, _, he⟩
    next error s₂ he =>
      split at h
      · exact ih h
      · cases h

end Emitter

namespace Tree

variable {σ : Type}

/-- What a search finds is described by the tree, whatever the range. -/
theorem mem_language_of_search {source : RandomSource σ} {alphabet : Alphabet} {t : Tree}
    {target : Extent} {s : σ} {w : List Char}
    (h : ((t.emitter source alphabet).search source target s).1.result = .ok w) :
    w ∈ t.language (.drawn alphabet) := by
  simp only [Emitter.search] at h
  split at h
  · cases h
  next lengths hclip =>
    obtain ⟨s₀, s₁, s₂, he⟩ := Emitter.attempt_ok h
    exact (emitter_sound he).1

/-- What a search finds is described by the tree and has a length in the range. Where only
`unbounded` is left to be drawn, the range holds it because it has no limit. -/
theorem search_sound {source : RandomSource σ} {alphabet : Alphabet} {t : Tree} {target : Extent}
    (ht : target.least < unbounded) {s : σ} {w : List Char}
    (h : ((t.emitter source alphabet).search source target s).1.result = .ok w) :
    w ∈ t.language (.drawn alphabet) ∧ w.length ∈ target := by
  simp only [Emitter.search, length_emitter] at h
  split at h
  · cases h
  next lengths hclip =>
    obtain ⟨s₀, s₁, s₂, he⟩ := Emitter.attempt_ok h
    obtain ⟨hw, hlen, hown⟩ := emitter_sound he
    refine ⟨hw, ?_⟩
    obtain ⟨hleast, hmost⟩ := Extent.ends_of_clip hclip
    have hends := lengths.least_le_most
    rw [hlen, Extent.mem_iff]
    rcases Nat.lt_or_ge lengths.least unbounded with hsmall | hlarge
    · have hdrawn := source.range_mem s₀ (lt_justAbove_of_le hsmall hends) hsmall
      have := le_of_lt_justAbove hdrawn.2
      omega
    · have := t.length.most_le_unbounded
      rw [Extent.mem_iff] at hown
      omega

open RandomSource (prescribed)

/-- What the tree describes and has a length in the range can be found. -/
theorem search_complete {alphabet : Alphabet} {t : Tree} (h : t.Every IsAttainable)
    {target : Extent} {w : List Char} (hw : w ∈ t.language (.drawn alphabet))
    (hsmall : w.length < unbounded) (ht : w.length ∈ target) :
    ∃ answers, ((t.emitter prescribed alphabet).search prescribed target answers).1.result =
      .ok w := by
  have hown := (length_admits t hw).mem hsmall
  obtain ⟨lengths, hclip⟩ := Extent.clip_of_mem hown ht
  obtain ⟨hleast, hmost⟩ := Extent.ends_of_clip hclip
  obtain ⟨answers, hyield⟩ := (emitter_complete alphabet h).canYield w hw hsmall []
  rw [List.append_nil] at hyield
  have hdraw : prescribed.range lengths.least (justAbove lengths.most)
      (.count w.length :: answers) = (w.length, answers) := by
    rw [Extent.mem_iff] at hown ht
    have := lt_justAbove_of_le hsmall (show w.length ≤ lengths.most by omega)
    simp only [prescribed]
    rw [if_pos (by omega)]
  refine ⟨.count w.length :: answers, ?_⟩
  simp only [Emitter.search, length_emitter, hclip, maxAttempts, Emitter.attempt, hdraw, hyield]

end Tree

end Exemplar
