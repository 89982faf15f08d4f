import Exemplar.Proofs.Emission.Sharing
import Exemplar.Random.Script

/-!
# Sharing out without faults

Where a length is shared out, arrays are read at computed places, and sums and differences of counts
are formed. None of these can go wrong: with a check of every such step, and of the progress of
every round, sharing out does the same as without. What it does is known from what holds between two
chunks. It splits the length in a way that the parts allow, if there is one, and which one is up to
the source.

## Main definitions

* `Fault`: what would stop a computation with counts and arrays
* `Checked`: an emission in which faults are told
* `shareOutChecked`: sharing out with every step checked
* `cappedSum`: a sum that is kept at `unbounded` in each step

## Main results

* `Sharing.exists_round`: no fault in a round
* `giveOutChecked_eq`, `shareOutChecked_eq`: no fault at all
* `shareOut_splits`: sharing out splits a length, and every split can come about
-/

namespace Exemplar

/-! ## Checks -/

/-- What would stop a computation with counts and arrays. -/
inductive Fault where
  /-- An array is read at a place that it does not have. -/
  | noPlace
  /-- The difference of two counts is negative. -/
  | negative
  /-- The sum of two counts is above `unbounded`. -/
  | overflow
  /-- A round of a loop leaves as much to be done as there was. -/
  | noProgress

/-- An emission in which faults are told. -/
abbrev Checked (σ α : Type) := EStateM (Fault ⊕ EmissionError) σ α

variable {σ α : Type}

namespace Checked

/-- An emission, in which no fault is told. -/
def ofEmission (e : Emission σ α) : Checked σ α := fun s =>
  match e s with
  | .ok a s => .ok a s
  | .error x s => .error (.inr x) s

/-- The member of an array at a place. -/
def get (a : Array α) (i : ℕ) : Checked σ α :=
  match a[i]? with
  | some x => pure x
  | none => throw (.inl .noPlace)

/-- The sum of two counts. -/
def plus (m n : ℕ) : Checked σ ℕ :=
  if m + n ≤ unbounded then pure (m + n) else throw (.inl .overflow)

/-- The difference of two counts. -/
def minus (m n : ℕ) : Checked σ ℕ := if n ≤ m then pure (m - n) else throw (.inl .negative)

theorem ofEmission_bind {β : Type} (e : Emission σ α) (f : α → Emission σ β) :
    ofEmission (e >>= f) = ofEmission e >>= fun a => ofEmission (f a) := by
  funext s
  change ofEmission (EStateM.bind e f) s = EStateM.bind (ofEmission e) _ s
  simp only [ofEmission, EStateM.bind]
  cases e s <;> rfl

theorem ofEmission_draw_bind {β : Type} (source : RandomSource σ) (least below : ℕ)
    (f : ℕ → Checked σ β) (s : σ) : (ofEmission (draw source least below) >>= f) s =
      f (source.range least below s).1 (source.range least below s).2 := rfl

theorem get_of_getElem? {a : Array α} {i : ℕ} {x : α} (h : a[i]? = some x) :
    (get a i : Checked σ α) = pure x := by
  rw [get, h]

theorem plus_of_le {m n : ℕ} (h : m + n ≤ unbounded) : (plus m n : Checked σ ℕ) = pure (m + n) :=
  if_pos h

theorem minus_of_le {m n : ℕ} (h : n ≤ m) : (minus m n : Checked σ ℕ) = pure (m - n) := if_pos h

end Checked

open Checked

/-! ## Sharing out with checks -/

/-- A sum that is kept at `unbounded` in each step. -/
def cappedSum (l : List ℕ) : ℕ := l.foldl cappedAdd 0

/-- One round of giving out: a chunk to a part that can take more. -/
def roundChecked (source : RandomSource σ) (shares : Array Share) (takers : Array ℕ) (slack : ℕ) :
    Checked σ (Array Share × Array ℕ × ℕ) := do
  if takers.isEmpty then throw (.inr (.leftOver slack))
  let pick ← ofEmission (draw source 0 takers.size)
  let place ← get takers pick
  let share ← get shares place
  let chunk ← ofEmission (draw source 1 (justAbove (min share.room slack)))
  let given ← plus share.given chunk
  let slack ← minus slack chunk
  let share := { share with given }
  let takers := if share.room = 0 then swapRemove takers pick else takers
  return (shares.setIfInBounds place share, takers, slack)

/-- Gives out `slack` in rounds. -/
def giveOutChecked (source : RandomSource σ) (shares : Array Share) (takers : Array ℕ)
    (slack : ℕ) : Checked σ (Array Share) := fun s =>
  if slack = 0 then .ok shares s
  else
    match roundChecked source shares takers slack s with
    | .error x s => .error x s
    | .ok (shares, takers, left) s =>
      if left < slack then giveOutChecked source shares takers left s
      else .error (.inl .noProgress) s
termination_by slack

/-- Random lengths, one for each part and in its range, that add up to `total`. -/
def shareOutChecked (source : RandomSource σ) (parts : List Extent) (total : ℕ) :
    Checked σ (List ℕ) := do
  let floor := cappedSum (parts.map Extent.least)
  let ceiling := cappedSum (parts.map Extent.most)
  if total < floor ∨ ceiling < total then throw (.inr (.infeasible total))
  let slack ← minus total floor
  let shares ← giveOutChecked source (parts.map Share.least).toArray (initialTakers parts) slack
  return (shares.map (·.given)).toList

/-! ## Sums in steps -/

/-- Capping along the way comes to the same as capping at the end. -/
theorem foldl_cappedAdd {l : List ℕ} {n : ℕ} (hn : n ≤ unbounded) :
    l.foldl cappedAdd n = min (n + l.sum) unbounded := by
  induction l generalizing n with
  | nil =>
    rw [List.foldl_nil, List.sum_nil]
    omega
  | cons k l ih =>
    have hstep : cappedAdd n k ≤ unbounded := Nat.min_le_right _ _
    rw [List.foldl_cons, List.sum_cons, ih hstep, cappedAdd]
    omega

theorem cappedSum_eq (l : List ℕ) : cappedSum l = min l.sum unbounded := by
  rw [cappedSum, foldl_cappedAdd (Nat.zero_le _), Nat.zero_add]

theorem least_sumAll_eq_cappedSum (parts : List Extent) :
    (Extent.sumAll parts).least = cappedSum (parts.map Extent.least) := by
  rw [Extent.least_sumAll, cappedSum_eq]

theorem most_sumAll_eq_cappedSum (parts : List Extent) :
    (Extent.sumAll parts).most = cappedSum (parts.map Extent.most) := by
  rw [Extent.most_sumAll, cappedSum_eq]

/-! ## No faults -/

theorem setIfInBounds_eq_modify {a : Array α} {i : ℕ} {x : α} (h : a[i]? = some x) (f : α → α) :
    a.setIfInBounds i (f x) = a.modify i f := by
  apply Array.ext'
  rw [Array.toList_setIfInBounds, Array.toList_modify, List.modify_eq_set_getElem?,
    Array.getElem?_toList, h]
  rfl

theorem getElem?_modify_self {a : Array α} {i : ℕ} {x : α} (h : a[i]? = some x) (f : α → α) :
    (a.modify i f)[i]? = some (f x) := by
  rw [Array.getElem?_modify, if_pos rfl, h, Option.map_some]

theorem isEmpty_eq_false {a : Array α} {i : ℕ} {x : α} (h : a[i]? = some x) :
    a.isEmpty = false := by
  have hi := (Array.getElem?_eq_some_iff.mp h).1
  simpa [Array.size_pos_iff] using Nat.zero_lt_of_lt hi

theorem draw_bind {β : Type} (source : RandomSource σ) (least below : ℕ) (f : ℕ → Emission σ β)
    (s : σ) : (draw source least below >>= f) s =
      f (source.range least below s).1 (source.range least below s).2 := rfl

section Round

variable {source : RandomSource σ} {parts : List Extent} {total : ℕ} {shares : Array Share}
  {takers : Array ℕ} {slack pick chunk place : ℕ} {share : Share} {s s₁ s₂ : σ}

/-- The rest of a round is known once the source has answered. -/
theorem roundChecked_eq (hpick : source.range 0 takers.size s = (pick, s₁))
    (hplace : takers[pick]? = some place) (hshare : shares[place]? = some share)
    (hchunk : source.range 1 (justAbove (min share.room slack)) s₁ = (chunk, s₂))
    (hplus : share.given + chunk ≤ unbounded) (hminus : chunk ≤ slack) :
    roundChecked source shares takers slack s =
      .ok (shares.modify place (·.add chunk),
        if (share.add chunk).room = 0 then swapRemove takers pick else takers,
        slack - chunk) s₂ := by
  rw [roundChecked, isEmpty_eq_false hplace]
  simp only [Bool.false_eq_true, if_false]
  rw [ofEmission_draw_bind, hpick, get_of_getElem? hplace, pure_bind, get_of_getElem? hshare,
    pure_bind, ofEmission_draw_bind, hchunk, plus_of_le hplus, pure_bind, minus_of_le hminus,
    pure_bind, ← setIfInBounds_eq_modify hshare]
  rfl

/-- The same round without checks. -/
theorem giveOut_eq (hslack : slack ≠ 0) (hpick : source.range 0 takers.size s = (pick, s₁))
    (hplace : takers[pick]? = some place) (hshare : shares[place]? = some share)
    (hchunk : source.range 1 (justAbove (min share.room slack)) s₁ = (chunk, s₂)) :
    giveOut source shares takers slack s = giveOut source (shares.modify place (·.add chunk))
      (if (share.add chunk).room = 0 then swapRemove takers pick else takers) (slack - chunk)
      s₂ := by
  rw [giveOut_step source hslack (isEmpty_eq_false hplace), draw_bind, hpick]
  simp only [Array.getD_eq_getD_getElem?, hplace, hshare, Option.getD_some]
  rw [draw_bind, hchunk]
  simp only [getElem?_modify_self hshare, Option.getD_some]

/-- In a round nothing is read where there is nothing, no sum is too large and no difference is
negative, and some of the slack is given out. -/
theorem Sharing.exists_round (h : Sharing parts total shares takers slack)
    (source : RandomSource σ) (htotal : total < unbounded)
    (hmost : total ≤ (parts.map Extent.most).sum) (hslack : slack ≠ 0) (s : σ) :
    ∃ shares' takers' left s',
      roundChecked source shares takers slack s = .ok (shares', takers', left) s' ∧
      left < slack ∧ Sharing parts total shares' takers' left ∧
      giveOut source shares takers slack s = giveOut source shares' takers' left s' := by
  have htakers := h.takers_nonempty hslack hmost
  have hsize : 0 < takers.size := by
    simpa [Array.size_pos_iff] using htakers
  -- The place that is picked is that of a part with room.
  rcases hpick : source.range 0 takers.size s with ⟨pick, s₁⟩
  obtain ⟨-, hlt⟩ := hpick ▸ source.range_mem s hsize (by decide)
  obtain ⟨place, hplace⟩ : ∃ place, takers[pick]? = some place :=
    ⟨_, Array.getElem?_eq_getElem hlt⟩
  have hget : takers.getD pick 0 = place := by
    rw [Array.getD_eq_getD_getElem?, hplace, Option.getD_some]
  obtain ⟨share, hshare, hroom⟩ := hget ▸ h.exists_taker hlt
  have hgiven := h.given_add_slack_le (List.mem_of_getElem? hshare)
  rw [Array.getElem?_toList] at hshare
  -- The chunk fits into the room and into the slack.
  have hmin : min share.room slack < unbounded := by omega
  have hsome : 1 < justAbove (min share.room slack) := (lt_justAbove_iff hmin).mpr (by omega)
  rcases hchunk : source.range 1 (justAbove (min share.room slack)) s₁ with ⟨chunk, s₂⟩
  obtain ⟨hone, hfits⟩ := hchunk ▸ source.range_mem s₁ hsome (by decide)
  rw [lt_justAbove_iff hmin] at hfits
  refine ⟨_, _, _, s₂,
    roundChecked_eq hpick hplace hshare hchunk (by omega) (by omega), by omega, ?_,
    giveOut_eq hslack hpick hplace hshare hchunk⟩
  have hgive := h.give htotal.le hlt
    (show chunk ≤ (shares.getD (takers.getD pick 0) default).room by
      rw [hget, Array.getD_eq_getD_getElem?, hshare, Option.getD_some]
      omega) (by omega)
  simp only [hget, Array.getD_eq_getD_getElem?, getElem?_modify_self hshare,
    Option.getD_some] at hgive
  exact hgive

/-- Giving out with checks is giving out. Every round leaves less than there was, and what holds
between two chunks. -/
theorem giveOutChecked_eq (source : RandomSource σ) (htotal : total < unbounded)
    (hmost : total ≤ (parts.map Extent.most).sum) (h : Sharing parts total shares takers slack)
    (s : σ) : giveOutChecked source shares takers slack s =
      ofEmission (giveOut source shares takers slack) s := by
  induction slack using Nat.strong_induction_on generalizing shares takers s with
  | h slack ih =>
    by_cases hslack : slack = 0
    · rw [giveOutChecked, if_pos hslack, ofEmission, giveOut, if_pos hslack]
    · obtain ⟨shares', takers', left, s', hround, hleft, hnext, hgive⟩ :=
        h.exists_round source htotal hmost hslack s
      rw [giveOutChecked, if_neg hslack, hround]
      simp only [hleft, if_true]
      rw [ih left hleft hnext, ofEmission, ofEmission, hgive]

end Round

/-! ## Splits -/

section Splits

variable {parts : List Extent} {total : ℕ}

/-- Sharing out with checks is sharing out. -/
theorem shareOutChecked_eq (source : RandomSource σ) (htotal : total < unbounded) :
    shareOutChecked source parts total = ofEmission (shareOut source parts total) := by
  have hleast := least_sumAll_eq_cappedSum parts
  have hmost := most_sumAll_eq_cappedSum parts
  rw [shareOutChecked, shareOut, ← hleast, ← hmost]
  by_cases hrange : total < (Extent.sumAll parts).least ∨ (Extent.sumAll parts).most < total
  · rw [if_pos hrange, if_pos hrange]
    rfl
  · rw [if_neg hrange, if_neg hrange]
    rw [not_or, Nat.not_lt, Nat.not_lt] at hrange
    -- A sum that has been capped is above every length below `unbounded`.
    have hreach : total ≤ (parts.map Extent.most).sum := by
      have := Extent.most_sumAll parts
      omega
    have hgive : giveOutChecked source (parts.map Share.least).toArray (initialTakers parts)
        (total - (Extent.sumAll parts).least) = _ :=
      funext (giveOutChecked_eq source htotal hreach
        (sharing_least (hrange.1.trans_lt htotal) hrange.1))
    rw [minus_of_le hrange.1, pure_bind, hgive, ofEmission_bind]
    rfl

theorem exists_shareOut (source : RandomSource σ) (htotal : total < unbounded)
    (hin : total ∈ Extent.sumAll parts) (s : σ) :
    ∃ lengths s', shareOut source parts total s = .ok lengths s' ∧
      List.Forall₂ (fun e n => n ∈ e) parts lengths ∧ lengths.sum = total := by
  have hensures : (shareOut source parts total).Ensures
      (fun lengths => List.Forall₂ (fun e n => n ∈ e) parts lengths ∧ lengths.sum = total)
      fun _ => False := shareOut_ensures source htotal fun hout => hout hin
  exact hensures.exists_ok s

theorem shareOut_of_not_mem (source : RandomSource σ) (hout : total ∉ Extent.sumAll parts) (s : σ) :
    shareOut source parts total s = .error (.infeasible total) s := by
  rw [Extent.mem_iff] at hout
  rw [shareOut, if_pos (by omega)]
  rfl

/-- Sharing out a length ends with lengths that the parts allow and that add up, one for each part,
or tells that there are none. No step of it goes wrong. Whatever lengths the parts allow, with some
source they come about if they add up. -/
theorem shareOut_splits (parts : List Extent) {total : ℕ} (htotal : total < unbounded) :
    (∀ {σ : Type} (source : RandomSource σ) (s : σ),
      (cappedSum (parts.map Extent.least) ≤ total ∧ total ≤ cappedSum (parts.map Extent.most) →
        ∃ lengths s', shareOut source parts total s = .ok lengths s' ∧
          lengths.length = parts.length ∧ List.Forall₂ (fun e n => n ∈ e) parts lengths ∧
          lengths.sum = total) ∧
      (¬ (cappedSum (parts.map Extent.least) ≤ total ∧ total ≤ cappedSum (parts.map Extent.most)) →
        shareOut source parts total s = .error (.infeasible total) s) ∧
      shareOutChecked source parts total s = ofEmission (shareOut source parts total) s) ∧
    ∀ lengths : List ℕ, List.Forall₂ (fun e n => n ∈ e) parts lengths → lengths.sum = total →
      ∃ (σ : Type) (source : RandomSource σ) (s s' : σ),
        shareOut source parts total s = .ok lengths s' := by
  rw [← least_sumAll_eq_cappedSum, ← most_sumAll_eq_cappedSum, ← Extent.mem_iff]
  refine ⟨fun source s => ⟨fun hin => ?_, fun hout => shareOut_of_not_mem source hout s, ?_⟩, ?_⟩
  · obtain ⟨lengths, s', hok, hranges, hsum⟩ := exists_shareOut source htotal hin s
    exact ⟨lengths, s', hok, hranges.length_eq.symm, hranges, hsum⟩
  · rw [shareOutChecked_eq source htotal]
  · intro lengths hranges hsum
    obtain ⟨answers, hok⟩ := canYield_shareOut htotal hranges hsum []
    exact ⟨_, _, _, _, hok⟩

/-- Nine among one to three, just two, and any number: the script makes one split, another one can
come about as well, and a single one is too few for them. -/
theorem shareOut_splits_three : ∃ lengths s',
    shareOut Script.source [⟨1, 3, by decide, by decide⟩, .exactly 2, .any] 9 ⟨#[0, 1, 1, 5], 0⟩ =
      .ok lengths s' ∧ lengths.length = 3 ∧ lengths.sum = 9 ∧
    (∃ (σ : Type) (source : RandomSource σ) (s s' : σ), shareOut source
      [⟨1, 3, by decide, by decide⟩, .exactly 2, .any] 9 s = .ok [3, 2, 4] s') ∧
    shareOut Script.source [⟨1, 3, by decide, by decide⟩, .exactly 2, .any] 1 ⟨#[], 0⟩ =
      .error (.infeasible 1) ⟨#[], 0⟩ := by
  obtain ⟨hruns, hreach⟩ := shareOut_splits
    [⟨1, 3, by decide, by decide⟩, .exactly 2, .any] (show 9 < unbounded by decide)
  obtain ⟨lengths, s', hok, hlength, -, hsum⟩ :=
    (hruns Script.source ⟨#[0, 1, 1, 5], 0⟩).1 (by decide)
  have hfew := (shareOut_splits [⟨1, 3, by decide, by decide⟩, .exactly 2, .any]
    (show 1 < unbounded by decide)).1 Script.source ⟨#[], 0⟩
  refine ⟨lengths, s', hok, hlength, hsum, hreach [3, 2, 4] ?_ (by decide), hfew.2.1 (by decide)⟩
  exact .cons (by decide) (.cons (by decide) (.cons (by decide) .nil))

end Splits

end Exemplar
