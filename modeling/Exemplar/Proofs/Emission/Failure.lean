import Exemplar.Proofs.Emission.Search
import Exemplar.Proofs.Nodes

/-!
# How emissions fail

An emitter shares a length out and leaves the rest to its parts, so a failure of the whole comes
from a part, unless the length could not be shared out at all. For each way to put emitters together
there is one account of where a failure comes from: which lengths the parts have been given, and
which part fails. A length that is shared out to a number of occurrences to draw from never fails to
be shared out, so nothing else goes wrong than a length without a string and a class without
characters.

## Main definitions

* `Tree.Blames`: an error that tells of a length, or of a leaf of the tree without characters
* `Emitter.Misses`: a length that a search may draw in vain

## Main results

* `Emitter.canFail_ofLeaf`, `Emitter.canFail_sequence`, `Emitter.canFail_choice`,
  `Emitter.canFail_repeated`: where a failure comes from
* `Tree.blames_of_canFail`: what the emitter of a tree fails with
* `Emitter.search_error`: what a search fails with
-/

namespace Exemplar

/-! ## The number of occurrences -/

/-- A number of occurrences that is not below the least one to draw from is not too short for the
length. -/
theorem le_mul_of_quotientUp_le {n b k : Nat} (hn : n < unbounded) (hk : k < unbounded)
    (h : quotientUp n b ≤ k) : n ≤ k * b := by
  rw [quotientUp] at h
  by_cases hzero : n = 0
  · omega
  rw [if_neg hzero] at h
  by_cases hb : b = 0 ∨ n = unbounded
  · rw [if_pos hb] at h
    omega
  rw [if_neg hb, not_or] at *
  by_cases hopen : b = unbounded
  · rw [if_pos hopen] at h
    rw [hopen]
    exact hn.le.trans (Nat.le_mul_of_pos_left _ h)
  · rw [if_neg hopen, Nat.div_le_iff_le_mul_add_pred (Nat.pos_of_ne_zero hb.1)] at h
    have := Nat.mul_comm k b
    omega

theorem mul_le_of_le_quotient {n b k : Nat} (hn : n < unbounded)
    (h : quotient n b = unbounded ∨ k ≤ quotient n b) : k * b ≤ n := by
  rw [quotient] at h
  by_cases hb : b = 0
  · simp [hb]
  · rw [if_neg (by omega)] at h
    have hdiv := Nat.div_le_self n b
    exact (Nat.le_div_iff_mul_le (Nat.pos_of_ne_zero hb)).mp (by omega)

namespace Extent

theorem mem_sumAll_replicate {e : Extent} {k n : Nat} (hn : n < unbounded) :
    n ∈ sumAll (List.replicate k e) ↔ k * e.least ≤ n ∧ n ≤ k * e.most := by
  rw [mem_iff, least_sumAll, most_sumAll, List.map_replicate, List.map_replicate,
    List.sum_replicate_nat, List.sum_replicate_nat]
  omega

end Extent

namespace Emitter

/-- Where there are numbers of occurrences to draw from, the length is one that can be counted. -/
theorem lt_unbounded_of_occurrences? {occurs once : Extent} {n : Nat} {window : Nat × Nat}
    (hin : n ∈ occurs.mul once) (h : occurrences? occurs once n = some window) :
    n < unbounded := by
  refine Nat.lt_of_le_of_ne (hin.2.trans (Extent.most_le_unbounded _)) ?_
  rintro rfl
  rw [occurrences?_unbounded] at h
  cases h

/-- Every number of occurrences to draw from makes up the length. An upper end that was capped stems
from a quotient without limit. -/
theorem mem_sumAll_of_occurrences? {occurs once : Extent} {n k lowest highest : Nat}
    (hn : n < unbounded) (h : occurrences? occurs once n = some (lowest, highest))
    (hlow : lowest ≤ k) (hhigh : k ≤ highest) :
    n ∈ Extent.sumAll (List.replicate k once) := by
  have hsmall := (admits_of_occurrences? hn h).2.1
  simp only [occurrences?] at h
  split at h
  · cases h
  obtain ⟨rfl, rfl⟩ := Prod.mk.inj (Option.some.inj h)
  rw [Extent.mem_sumAll_replicate hn]
  refine ⟨mul_le_of_le_quotient hn ?_, le_mul_of_quotientUp_le hn (hhigh.trans_lt hsmall) ?_⟩
  · split at hhigh <;> omega
  · omega

/-! ## Combinators -/

section Combinators

variable {σ : Type} {source : RandomSource σ} {n : Nat} {x : EmissionError}

/-- A leaf fails where it does not occur so often, and where there are no characters. -/
theorem canFail_ofLeaf {alphabet : Alphabet} {cls : CharClass} {m : Mark}
    (h : ((ofLeaf source alphabet cls m).emit n).CanFail x) :
    n ∉ m.occurs ∧ x = .infeasible n ∨ n ≠ 0 ∧ (cls.resolve alphabet).isEmpty = true ∧
      x = .emptyClass (Tree.leaf cls m).describe :=
  (ofLeaf_ensures alphabet cls m n).of_canFail h

/-- A sequence fails where the length is none of its lengths, and where a part fails with the length
that it is given. -/
theorem canFail_sequence {parts : List (Emitter σ)} (hn : n < unbounded)
    (h : ((sequence source parts).emit n).CanFail x) :
    (n ∉ (sequence source parts).length ∧ x = .infeasible n) ∨
      ∃ lengths, List.Forall₂ (fun (e : Emitter σ) k => k ∈ e.length) parts lengths ∧
        lengths.sum = n ∧ ∃ share ∈ parts.zip lengths, (share.1.emit share.2).CanFail x := by
  simp only [sequence] at h
  have hshare : (shareOut source (parts.map fun e : Emitter σ => e.length) n).Ensures _
      fun x => n ∉ (sequence source parts).length ∧ x = .infeasible n :=
    shareOut_ensures source hn fun hout => ⟨hout, rfl⟩
  rcases h.of_bind hshare with hout | ⟨lengths, ⟨hin, hsum⟩, h⟩
  · exact .inl hout
  · rw [List.forall₂_map_left_iff] at hin
    exact .inr ⟨lengths, hin, hsum, h.of_texts⟩

/-- A choice fails where no member has the length among its lengths, and where such a member
fails. -/
theorem canFail_choice {members : List (Emitter σ)}
    (h : ((choice source members).emit n).CanFail x) :
    ((∀ e ∈ members, n ∉ e.length) ∧ x = .infeasible n) ∨
      ∃ e ∈ members, n ∈ e.length ∧ (e.emit n).CanFail x := by
  simp only [choice] at h
  rcases h.of_bind (Emission.ensures_shuffled (E := fun _ => False)) with
    hout | ⟨candidates, hperm, h⟩
  · exact hout.elim
  have hmem {e : Emitter σ} : e ∈ candidates ↔ e ∈ members ∧ n ∈ e.length := by
    rw [hperm.mem_iff, List.mem_filter, decide_eq_true_eq]
  rcases h.of_firstOf with ⟨hnone, rfl⟩ | ⟨emission, hemission, hx⟩
  · rw [List.map_eq_nil_iff] at hnone
    subst hnone
    exact .inl ⟨fun e he hin => List.not_mem_nil (hmem.mpr ⟨he, hin⟩), rfl⟩
  · obtain ⟨e, he, rfl⟩ := List.mem_map.mp hemission
    exact .inr ⟨e, (hmem.mp he).1, (hmem.mp he).2, hx⟩

/-- Before a choice fails for a local reason, every member that has the length among its lengths has
failed. -/
theorem canFail_of_canFail_choice {members : List (Emitter σ)}
    (h : ((choice source members).emit n).CanFail x) (hx : x.isLocal = true) :
    ∀ e ∈ members, n ∈ e.length → ∃ y, (e.emit n).CanFail y := by
  intro e he hin
  simp only [choice] at h
  rcases h.of_bind (Emission.ensures_shuffled (E := fun _ => False)) with
    hout | ⟨candidates, hperm, h⟩
  · exact hout.elim
  have hcandidate : e ∈ candidates := by
    rw [hperm.mem_iff, List.mem_filter, decide_eq_true_eq]
    exact ⟨he, hin⟩
  exact h.each_of_firstOf hx _ (List.mem_map_of_mem hcandidate)

/-- What occurs a number of times fails where no number of occurrences makes up the length, and
where an occurrence fails with the length that it is given. A number that is drawn makes up the
length, so that this can be shared out. -/
theorem canFail_repeated {occurs : Extent} {once : Emitter σ}
    (h : ((repeated source occurs once).emit n).CanFail x) :
    (x = .infeasible n ∧
      (n ∉ occurs.mul once.length ∨ occurrences? occurs once.length n = none)) ∨
      n < unbounded ∧ ∃ lengths : List Nat, occurs.Admits lengths.length ∧
        (∀ k ∈ lengths, k ∈ once.length) ∧ lengths.sum = n ∧
          ∃ k ∈ lengths, (once.emit k).CanFail x := by
  simp only [Emitter.repeated] at h
  split at h
  next hout => exact .inl ⟨Emission.eq_of_canFail_throw h, .inl hout⟩
  next hin =>
  split at h
  · exact absurd h Emission.not_canFail_pure
  split at h
  next hnone => exact .inl ⟨Emission.eq_of_canFail_throw h, .inr hnone⟩
  next lowest highest hsome =>
    rw [not_not] at hin
    have hn := lt_unbounded_of_occurrences? hin hsome
    have hdraw : (draw source lowest (justAbove highest)).Ensures _ fun _ => False :=
      ensures_draw_of_occurrences? hn hsome
    rcases h.of_bind hdraw with hout | ⟨count, hcount, h⟩
    · exact hout.elim
    have hshare : (shareOut source (List.replicate count once.length) n).Ensures _ fun _ => False :=
      shareOut_ensures source hn fun hout =>
        hout (mem_sumAll_of_occurrences? hn hsome hcount.1 hcount.2)
    rcases h.of_bind hshare with hout | ⟨lengths, ⟨hlengths, hsum⟩, h⟩
    · exact hout.elim
    have hlen : lengths.length = count := by simpa using hlengths.length_eq.symm
    have hadmits := (admits_of_occurrences? hn hsome).2.2 count hcount.1 hcount.2
    refine .inr ⟨hn, lengths, hlen ▸ hadmits, fun k hk => ?_, hsum, h.of_texts⟩
    obtain ⟨e, he, hke⟩ := exists_left_of_mem hlengths hk
    rwa [List.eq_of_mem_replicate he] at hke

end Combinators

end Emitter

/-! ## Trees -/

namespace Tree

variable {σ : Type} {source : RandomSource σ} {alphabet : Alphabet} {t : Tree} {n : Nat}
  {x : EmissionError}

/-- The error tells of a length, or of a leaf of the tree that has no characters. -/
inductive Blames (alphabet : Alphabet) (t : Tree) : EmissionError → Prop where
  | length (n : Nat) : Blames alphabet t (.infeasible n)
  | leaf {cls : CharClass} {m : Mark} : t.HasNode (leaf cls m) →
    (cls.resolve alphabet).isEmpty = true →
      Blames alphabet t (.emptyClass (Tree.leaf cls m).describe)

theorem Blames.of_child {u : Tree} (h : u.Blames alphabet x) (hu : u ∈ t.children) :
    t.Blames alphabet x := by
  cases h with
  | length n => exact .length n
  | leaf hnode hempty => exact .leaf (.inside hu hnode) hempty

theorem Blames.isLocal (h : t.Blames alphabet x) : x.isLocal = true := by
  cases h <;> rfl

theorem length_sequence_emitters (source : RandomSource σ) (alphabet : Alphabet) (ts : List Tree) :
    (Emitter.sequence source (ts.map (emitter source alphabet))).length =
      .sumAll (lengths ts) := by
  rw [lengths_eq_map, Emitter.sequence, List.map_map]
  exact congrArg _ (List.map_congr_left fun t _ => length_emitter source alphabet t)

theorem length_choice_emitters (source : RandomSource σ) (alphabet : Alphabet) (ts : List Tree) :
    (Emitter.choice source (ts.map (emitter source alphabet))).length =
      .hullAll (lengths ts) := by
  rw [lengths_eq_map, Emitter.choice, List.map_map]
  exact congrArg _ (List.map_congr_left fun t _ => length_emitter source alphabet t)

/-- Trees one after the other fail where one of them fails with the length that it is given. -/
theorem canFail_parts {parts : List Tree} (hn : n < unbounded)
    (h : ((Emitter.sequence source (parts.map (emitter source alphabet))).emit n).CanFail x) :
    (n ∉ Extent.sumAll (lengths parts) ∧ x = .infeasible n) ∨
      ∃ ks, List.Forall₂ (fun (t : Tree) k => k ∈ t.length) parts ks ∧ ks.sum = n ∧
        ∃ t k, (t, k) ∈ parts.zip ks ∧ ((t.emitter source alphabet).emit k).CanFail x := by
  rcases Emitter.canFail_sequence hn h with hout | ⟨ks, hks, hsum, share, hshare, hfail⟩
  · rw [length_sequence_emitters] at hout
    exact .inl hout
  · rw [List.forall₂_map_left_iff] at hks
    simp only [length_emitter] at hks
    rw [List.zip_map_left] at hshare
    obtain ⟨⟨t, k⟩, hmem, rfl⟩ := List.mem_map.mp hshare
    exact .inr ⟨ks, hks, hsum, t, k, hmem, hfail⟩

/-- One of some trees fails where none has the length among its lengths, and where one of them
fails that has. -/
theorem canFail_members {members : List Tree}
    (h : ((Emitter.choice source (members.map (emitter source alphabet))).emit n).CanFail x) :
    ((∀ t ∈ members, n ∉ t.length) ∧ x = .infeasible n) ∨
      ∃ t ∈ members, n ∈ t.length ∧ ((t.emitter source alphabet).emit n).CanFail x := by
  rcases Emitter.canFail_choice h with ⟨hnone, rfl⟩ | ⟨e, he, hin, hfail⟩
  · refine .inl ⟨fun t ht => ?_, rfl⟩
    rw [← length_emitter source alphabet]
    exact hnone _ (List.mem_map_of_mem ht)
  · obtain ⟨t, ht, rfl⟩ := List.mem_map.mp he
    rw [length_emitter] at hin
    exact .inr ⟨t, ht, hin, hfail⟩

/-- Whatever the source answers, the emitter of a tree fails for want of a string of some length or
of a character. A part is given no more than the whole, so its length can be counted if that can. -/
theorem blames_of_canFail (h : ((t.emitter source alphabet).emit n).CanFail x) :
    t.Blames alphabet x := by
  induction t generalizing n with
  | leaf cls m =>
    rcases Emitter.canFail_ofLeaf h with ⟨-, rfl⟩ | ⟨-, hempty, rfl⟩
    · exact .length n
    · exact .leaf (.top _) hempty
  | sequence parts m ih =>
    rw [emitter, emitters_eq_map] at h
    rcases Emitter.canFail_repeated h with ⟨rfl, -⟩ | ⟨hn, ks, -, -, hsum, k, hk, h⟩
    · exact .length n
    have hkn : k < unbounded := lt_of_mem_of_sum_lt hk (hsum ▸ hn)
    rcases canFail_parts hkn h with ⟨-, rfl⟩ | ⟨ls, -, -, t, l, hshare, h⟩
    · exact .length k
    have ht := (List.of_mem_zip hshare).1
    exact (ih t ht h).of_child ht
  | choice members m ih =>
    rw [emitter, emitters_eq_map] at h
    rcases Emitter.canFail_repeated h with ⟨rfl, -⟩ | ⟨-, ks, -, -, -, k, -, h⟩
    · exact .length n
    rcases canFail_members h with ⟨-, rfl⟩ | ⟨t, ht, -, h⟩
    · exact .length k
    exact (ih t ht h).of_child ht

end Tree

/-! ## Searches -/

namespace Emitter

variable {σ : Type} {source : RandomSource σ} {e : Emitter σ} {lengths range : Extent} {s : σ}
  {x : EmissionError}

/-- The source may draw the length. -/
def Draws (source : RandomSource σ) (lengths : Extent) (n : Nat) : Prop :=
  ∃ s, (source.range lengths.least (justAbove lengths.most) s).1 = n

/-- The source may draw the length, and find no string of it. -/
def Misses (source : RandomSource σ) (e : Emitter σ) (lengths : Extent) (n : Nat) : Prop :=
  Draws source lengths n ∧ ∃ y, (e.emit n).CanFail y ∧ y.isInfeasible = true

/-- What an attempt fails with: a length that was drawn in vain, or the failure of a length that was
drawn. -/
theorem attempt_error {attempts : Nat} {failed : List Nat}
    (h : (e.attempt source lengths attempts failed s).1.result = .error x)
    (hfailed : ∀ n ∈ failed, Misses source e lengths n) (hsome : failed = [] → attempts ≠ 0) :
    (∃ n, Misses source e lengths n ∧ x = .infeasible n) ∨
      ∃ n, Draws source lengths n ∧ (e.emit n).CanFail x ∧ x.isInfeasible = false := by
  induction attempts generalizing failed s with
  | zero =>
    obtain ⟨n, hn⟩ := Option.ne_none_iff_exists'.mp fun hnone =>
      hsome (List.getLast?_eq_none_iff.mp hnone) rfl
    simp only [attempt, hn, Option.getD_some, Except.error.injEq] at h
    exact .inl ⟨n, hfailed n (List.mem_of_getLast? hn), h.symm⟩
  | succ attempts ih =>
    simp only [attempt] at h
    split at h
    · cases h
    next y s₂ hy =>
      split at h
      next hinfeasible =>
        -- The length has been missed, and the other attempts are known by induction.
        apply ih h
        · intro n hn
          rcases List.mem_append.mp hn with hn | hn
          · exact hfailed n hn
          · rw [List.mem_singleton.mp hn]
            exact ⟨⟨s, rfl⟩, y, ⟨_, s₂, hy⟩, hinfeasible⟩
        · simp
      next hother =>
        obtain rfl : y = x := Except.error.inj h
        exact .inr ⟨_, ⟨s, rfl⟩, ⟨_, s₂, hy⟩, by simpa using hother⟩

/-- What a search fails with: that the range misses the lengths, or else what an attempt fails
with. -/
theorem search_error (h : (e.search source range s).1.result = .error x) :
    (∃ reason, e.length.clip range = .error reason ∧ x = .length reason) ∨
      ∃ lengths, e.length.clip range = .ok lengths ∧
        ((∃ n, Misses source e lengths n ∧ x = .infeasible n) ∨
          ∃ n, Draws source lengths n ∧ (e.emit n).CanFail x ∧ x.isInfeasible = false) := by
  simp only [search] at h
  split at h
  next reason hclip => exact .inl ⟨reason, hclip, (Except.error.inj h).symm⟩
  next lengths hclip =>
    exact .inr ⟨lengths, hclip, attempt_error h (by simp) fun _ => by decide⟩

end Emitter

end Exemplar
