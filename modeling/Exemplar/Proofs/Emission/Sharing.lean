import Exemplar.Emission.Sharing
import Exemplar.Proofs.Counts
import Exemplar.Proofs.Emission.Outcome
import Exemplar.Proofs.Lists

/-!
# Sharing out exactly

Sharing out a length gives each part a length in its range, nothing is left over, and every way to
split the length can come about. Both follow from what giving out a chunk preserves: the parts that
are tried are just those that can take more, and what is given so far and what is still to be given
add up to the length.

## Main definitions

* `Sharing parts total shares takers slack`: what holds between two chunks

## Main results

* `Sharing.give`: giving out a chunk preserves it
* `shareOut_ensures`: what is shared out adds up, and nothing else can go wrong than a length out of
  range
* `canYield_shareOut`: every split of a length can come about
-/

namespace Exemplar

/-! ## Lists of counts -/

section Counts

variable {l m : List Nat}

/-- A member is below what the sum is below. -/
theorem lt_of_mem_of_sum_lt {n k : Nat} (hk : k ∈ l) (h : l.sum < n) : k < n :=
  (List.single_le_sum (fun _ _ => Nat.zero_le _) k hk).trans_lt h

theorem sum_le_sum_of_forall₂ (h : List.Forall₂ (· ≤ ·) l m) : l.sum ≤ m.sum := by
  induction h with
  | nil => exact Nat.le_refl _
  | cons hab _ ih =>
    rw [List.sum_cons, List.sum_cons]
    omega

/-- Numbers that are bounded one by one by others with the same sum are the same: the tails cannot
make up for a smaller head. -/
theorem eq_of_forall₂_le_of_sum_eq (h : List.Forall₂ (· ≤ ·) l m) (hs : l.sum = m.sum) : l = m := by
  induction h with
  | nil => rfl
  | @cons a b l m hab hlm ih =>
    have := sum_le_sum_of_forall₂ hlm
    rw [List.sum_cons, List.sum_cons] at hs
    rw [show a = b by omega, ih (by omega)]

/-- Of numbers that are bounded one by one by others with a greater sum, one is less than its
bound. -/
theorem exists_lt_of_sum_lt (h : List.Forall₂ (· ≤ ·) l m) (hs : l.sum < m.sum) :
    ∃ (i a b : Nat), l[i]? = some a ∧ m[i]? = some b ∧ a < b := by
  induction h with
  | nil => exact absurd hs (Nat.lt_irrefl _)
  | @cons a b l m hab hlm ih =>
    rcases Nat.lt_or_eq_of_le hab with hlt | rfl
    · exact ⟨0, a, b, rfl, rfl, hlt⟩
    · rw [List.sum_cons, List.sum_cons] at hs
      obtain ⟨i, x, y, hx, hy, hxy⟩ := ih (by omega)
      exact ⟨i + 1, x, y, by simpa using hx, by simpa using hy, hxy⟩

/-- The difference at one place is no greater than that of the sums, since at every other place `m`
has at least what `l` has there. -/
theorem sum_sub_le_of_forall₂ (h : List.Forall₂ (· ≤ ·) l m) {i a b : Nat} (ha : l[i]? = some a)
    (hb : m[i]? = some b) : b - a ≤ m.sum - l.sum := by
  induction h generalizing i with
  | nil => simp at ha
  | cons hab hlm ih =>
    have := sum_le_sum_of_forall₂ hlm
    rw [List.sum_cons, List.sum_cons]
    cases i with
    | zero =>
      simp only [List.getElem?_cons_zero, Option.some.injEq] at ha hb
      omega
    | succ i =>
      rw [List.getElem?_cons_succ] at ha hb
      have := ih ha hb
      omega

end Counts

/-! ## Shares -/

namespace Share

@[simp] theorem range_add (chunk : Nat) (share : Share) : (share.add chunk).range = share.range :=
  rfl

@[simp] theorem given_add (chunk : Nat) (share : Share) :
    (share.add chunk).given = share.given + chunk := rfl

theorem map_range_modify (chunk : Nat) (l : List Share) (i : Nat) :
    (l.modify i (add chunk)).map range = l.map range := by
  induction l generalizing i with
  | nil => cases i <;> rfl
  | cons a l ih => cases i <;> simp [ih]

/-- A chunk that is added at one place is added to the sum. -/
theorem sum_given_modify (chunk : Nat) {l : List Share} {i : Nat} (hi : i < l.length) :
    ((l.modify i (add chunk)).map given).sum = (l.map given).sum + chunk := by
  induction l generalizing i with
  | nil => exact absurd hi (Nat.not_lt_zero i)
  | cons a l ih =>
    cases i with
    | zero =>
      simp only [List.modify_zero_cons, List.map_cons, List.sum_cons, given_add]
      omega
    | succ i =>
      simp only [List.modify_succ_cons, List.map_cons, List.sum_cons,
        ih (Nat.lt_of_succ_lt_succ hi)]
      omega

/-- A part that has been given some more still lies in its range. -/
theorem given_add_mem {share : Share} {chunk : Nat} (h : share.given ∈ share.range)
    (hroom : chunk ≤ share.room) (hsmall : share.given + chunk ≤ unbounded) :
    (share.add chunk).given ∈ share.range := by
  obtain ⟨hl, hm⟩ := h
  simp only [room, shortOf] at hroom
  rw [Extent.mem_iff, given_add]
  split at hroom <;> omega

/-- A part without room has been given all that it can take. -/
theorem most_le_given_of_room {share : Share} (h : share.room = 0) :
    share.range.most ≤ share.given := by
  simp only [room, shortOf] at h
  split at h
  · exact absurd h (by decide)
  · omega

theorem room_ne_zero {share : Share} (h : share.given < share.range.most) : share.room ≠ 0 := by
  rw [room, shortOf]
  split
  · decide
  · omega

theorem room_ne_zero_iff {share : Share} (h : share.given < unbounded) :
    share.room ≠ 0 ↔ share.given < share.range.most := by
  refine ⟨fun hroom => ?_, room_ne_zero⟩
  rw [room, shortOf] at hroom
  split at hroom <;> omega

end Share

/-- Taking out the member at `i` leaves the others, in some order. The exchange puts it at the end,
where it is dropped. -/
theorem swapRemove_perm {α : Type} {a : Array α} {i : Nat} (hi : i < a.size) :
    (a[i] :: (swapRemove a i).toList).Perm a.toList := by
  have hl : a.size - 1 < a.size := by omega
  have hswap : a.swapIfInBounds i (a.size - 1) = a.swap i (a.size - 1) := by
    rw [Array.swapIfInBounds_def, dif_pos hi, dif_pos hl]
  have hne : (a.swap i (a.size - 1)).toList ≠ [] := by
    rw [← List.length_pos_iff, Array.length_toList, Array.size_swap]
    omega
  have hlast : (a.swap i (a.size - 1)).toList.getLast hne = a[i] := by
    rw [List.getLast_eq_getElem]
    simp
  have hsplit := List.dropLast_append_getLast hne
  rw [hlast] at hsplit
  rw [swapRemove, hswap, Array.toList_pop]
  have hcons : (a[i] :: (a.swap i (a.size - 1)).toList.dropLast).Perm
      (a.swap i (a.size - 1)).toList := by
    conv_rhs => rw [← hsplit]
    exact (List.perm_append_singleton _ _).symm
  exact hcons.trans (Array.swap_perm hi hl).toList

/-! ## Between two chunks -/

/-- What holds between two chunks: each part has been given a length in its range, the takers are
the places of the parts that can take more, and with the slack the lengths add up. -/
structure Sharing (parts : List Extent) (total : Nat) (shares : Array Share) (takers : Array Nat)
    (slack : Nat) : Prop where
  ranges : shares.toList.map Share.range = parts
  given_mem : ∀ share ∈ shares.toList, share.given ∈ share.range
  given_sum : (shares.toList.map Share.given).sum + slack = total
  takers_nodup : takers.toList.Nodup
  mem_takers : ∀ i, i ∈ takers.toList ↔ ∃ share, shares.toList[i]? = some share ∧ share.room ≠ 0

theorem getD_of_getElem? {shares : Array Share} {i : Nat} {share : Share}
    (h : shares.toList[i]? = some share) : shares.getD i default = share := by
  rw [Array.getElem?_toList] at h
  simp [Array.getD_eq_getD_getElem?, h]

namespace Sharing

variable {parts : List Extent} {total : Nat} {shares : Array Share} {takers : Array Nat}
  {slack : Nat}

/-- The part at the place of a taker. -/
theorem exists_taker (h : Sharing parts total shares takers slack) {pick : Nat}
    (hp : pick < takers.size) :
    ∃ share, shares.toList[takers.getD pick 0]? = some share ∧ share.room ≠ 0 := by
  have hget : takers.getD pick 0 = takers[pick] := by simp [hp]
  rw [hget]
  exact (h.mem_takers _).mp (Array.getElem_mem_toList hp)

/-- A part that can take more is at the place of a taker. -/
theorem exists_pick (h : Sharing parts total shares takers slack) {place : Nat} {share : Share}
    (hshare : shares.toList[place]? = some share) (hroom : share.room ≠ 0) :
    ∃ pick, pick < takers.size ∧ takers.getD pick 0 = place := by
  obtain ⟨pick, hpick, hplace⟩ := List.mem_iff_getElem.mp
    ((h.mem_takers place).mpr ⟨share, hshare, hroom⟩)
  rw [Array.length_toList] at hpick
  exact ⟨pick, hpick, by simpa [hpick] using hplace⟩

/-- What a part has been given is small as long as the length is. -/
theorem given_add_slack_le (h : Sharing parts total shares takers slack) {share : Share}
    (hs : share ∈ shares.toList) : share.given + slack ≤ total := by
  have hmem : share.given ∈ shares.toList.map Share.given := List.mem_map_of_mem hs
  have := List.single_le_sum (fun n _ => Nat.zero_le n) _ hmem
  have := h.given_sum
  omega

/-- As long as there is some slack, some part can take more, unless the length is out of reach.
Without takers no part has room, so what is given would reach the greatest lengths. -/
theorem takers_nonempty (h : Sharing parts total shares takers slack) (hslack : slack ≠ 0)
    (htotal : total ≤ (parts.map Extent.most).sum) : takers.isEmpty = false := by
  by_contra hempty
  have hnil : takers = #[] := by simpa using hempty
  have hfull : ∀ share ∈ shares.toList, share.range.most ≤ share.given := by
    intro share hs
    apply Share.most_le_given_of_room
    by_contra hroom
    obtain ⟨i, hi⟩ := List.mem_iff_getElem?.mp hs
    have := (h.mem_takers i).mpr ⟨share, hi, hroom⟩
    simp [hnil] at this
  have hsum : (shares.toList.map (Extent.most ∘ Share.range)).sum
      ≤ (shares.toList.map Share.given).sum := by
    apply sum_le_sum_of_forall₂
    rw [List.forall₂_map_left_iff, List.forall₂_map_right_iff, List.forall₂_same]
    exact hfull
  rw [← h.ranges, List.map_map] at htotal
  have := h.given_sum
  omega

/-- As long as there is some slack, some part lacks something that it is to be given, and all that
it lacks fits into its room and into the slack. -/
theorem exists_lacking (h : Sharing parts total shares takers slack) (htotal : total < unbounded)
    {wanted : List Nat} (hsum : wanted.sum = total)
    (hw : List.Forall₂ (fun share n => share.given ≤ n ∧ n ≤ share.range.most)
      shares.toList wanted) (hslack : slack ≠ 0) :
    ∃ (place : Nat) (share : Share) (n : Nat),
      shares.toList[place]? = some share ∧ wanted[place]? = some n ∧
      share.given < n ∧ n - share.given ≤ min share.room slack := by
  have hle : List.Forall₂ (· ≤ ·) (shares.toList.map Share.given) wanted := by
    rw [List.forall₂_map_left_iff]
    exact hw.imp fun _ _ h => h.1
  have hgiven := h.given_sum
  obtain ⟨place, a, n, ha, hn, hlt⟩ := exists_lt_of_sum_lt hle (by omega)
  have hlack := sum_sub_le_of_forall₂ hle ha hn
  rw [List.getElem?_map] at ha
  obtain ⟨share, hshare, rfl⟩ := Option.map_eq_some_iff.mp ha
  have hmost : n ≤ share.range.most := (rel_of_getElem? hw hshare hn).2
  have hnsum : n ≤ total := by
    have := List.single_le_sum (fun n _ => Nat.zero_le n) n (List.mem_of_getElem? hn)
    omega
  have hroom : n - share.given ≤ share.room := by
    rw [Share.room, shortOf]
    split <;> omega
  exact ⟨place, share, n, hshare, hn, hlt, Nat.le_min.mpr ⟨hroom, by omega⟩⟩

/-- Giving a chunk to a taker preserves what holds. -/
theorem give (h : Sharing parts total shares takers slack) (htotal : total ≤ unbounded)
    {pick chunk : Nat} (hp : pick < takers.size)
    (hroom : chunk ≤ (shares.getD (takers.getD pick 0) default).room) (hslack : chunk ≤ slack) :
    let shares' := shares.modify (takers.getD pick 0) (·.add chunk)
    Sharing parts total shares'
      (if (shares'.getD (takers.getD pick 0) default).room = 0 then swapRemove takers pick
        else takers)
      (slack - chunk) := by
  obtain ⟨share, hshare, hopen⟩ := h.exists_taker hp
  rw [getD_of_getElem? hshare] at hroom
  have hmem : share ∈ shares.toList := List.mem_of_getElem? hshare
  have hget : takers.getD pick 0 = takers[pick] := by simp [hp]
  generalize hplace : takers.getD pick 0 = place at *
  -- Nothing changes but the share at the place of the taker.
  intro shares'
  have hlist : shares'.toList = shares.toList.modify place (·.add chunk) := Array.toList_modify
  have hthere : shares'.toList[place]? = some (share.add chunk) := by
    rw [hlist, List.getElem?_modify_eq, hshare]
    rfl
  have helse : ∀ i, i ≠ place → shares'.toList[i]? = shares.toList[i]? := fun i hi => by
    simp [hlist, Ne.symm hi]
  have hsmall := h.given_add_slack_le hmem
  rw [getD_of_getElem? hthere]
  -- The takers, with the one that was picked in front.
  have hperm := swapRemove_perm hp
  rw [← hget] at hperm
  have hnodup := hperm.nodup_iff.mpr h.takers_nodup
  refine ⟨?_, ?_, ?_, ?_, ?_⟩
  · rw [hlist, Share.map_range_modify, h.ranges]
  · intro other hother
    obtain ⟨i, hi⟩ := List.mem_iff_getElem?.mp hother
    by_cases hip : i = place
    · subst hip
      obtain rfl : share.add chunk = other := Option.some.inj (hthere.symm.trans hi)
      exact Share.given_add_mem (h.given_mem share hmem) hroom (by omega)
    · rw [helse i hip] at hi
      exact h.given_mem other (List.mem_of_getElem? hi)
  · have hlt : place < shares.toList.length := (List.getElem?_eq_some_iff.mp hshare).1
    rw [hlist, Share.sum_given_modify chunk hlt]
    have := h.given_sum
    omega
  · split
    · exact (List.nodup_cons.mp hnodup).2
    · exact h.takers_nodup
  · intro i
    by_cases hip : i = place
    · -- The place stays a taker just when its part still has room.
      subst hip
      simp only [hthere, Option.some.injEq, exists_eq_left']
      split
      next hfull =>
        exact iff_of_false (List.nodup_cons.mp hnodup).1 (not_not.mpr hfull)
      next hroom' =>
        exact iff_of_true ((h.mem_takers i).mpr ⟨share, hshare, hopen⟩) hroom'
    · rw [helse i hip, ← h.mem_takers i]
      split
      · rw [← hperm.mem_iff, List.mem_cons]
        simp [hip]
      · rfl

end Sharing

/-! ## Giving out -/

section GiveOut

variable {σ : Type} {parts : List Extent} {total : Nat}

/-- The bound below which a chunk is drawn allows what has room and is left, and no more. -/
theorem lt_justAbove_iff {n m : Nat} (hm : m < unbounded) : n < justAbove m ↔ n ≤ m := by
  simp only [justAbove, cappedAdd]
  omega

theorem lt_justAbove_of_le {n m : Nat} (hn : n < unbounded) (h : n ≤ m) : n < justAbove m := by
  simp only [justAbove, cappedAdd]
  omega

theorem le_of_lt_justAbove {n m : Nat} (h : n < justAbove m) : n ≤ m := by
  simp only [justAbove, cappedAdd] at h
  omega

/-- A round of giving out, written as one. -/
theorem giveOut_step (source : RandomSource σ) {shares : Array Share} {takers : Array Nat}
    {slack : Nat} (hslack : slack ≠ 0) (htakers : takers.isEmpty = false) :
    giveOut source shares takers slack = (do
      let pick ← draw source 0 takers.size
      let place := takers.getD pick 0
      let chunk ← draw source 1 (justAbove (min (shares.getD place default).room slack))
      let shares := shares.modify place (·.add chunk)
      let takers :=
        if (shares.getD place default).room = 0 then swapRemove takers pick else takers
      giveOut source shares takers (slack - chunk)) := by
  funext s
  rw [giveOut, if_neg hslack, htakers]
  rfl

theorem giveOut_zero (source : RandomSource σ) (shares : Array Share) (takers : Array Nat) :
    giveOut source shares takers 0 = pure shares := by
  funext s
  rw [giveOut, if_pos rfl]
  rfl

/-- Giving out ends with nothing left, whatever the source answers. Every chunk is at least one, so
the slack decreases, and a taker has room, so there is a chunk to draw. -/
theorem giveOut_ensures (source : RandomSource σ) {E : EmissionError → Prop}
    (htotal : total ≤ unbounded) (hmost : total ≤ (parts.map Extent.most).sum) {slack : Nat}
    {shares : Array Share} {takers : Array Nat} (h : Sharing parts total shares takers slack) :
    (giveOut source shares takers slack).Ensures
      (fun shares => ∃ takers, Sharing parts total shares takers 0) E := by
  induction slack using Nat.strong_induction_on generalizing shares takers with
  | h slack ih =>
    rcases Nat.eq_zero_or_pos slack with rfl | hpos
    · rw [giveOut_zero]
      exact Emission.ensures_pure ⟨takers, h⟩
    · have htakers := h.takers_nonempty hpos.ne' hmost
      rw [giveOut_step source hpos.ne' htakers]
      have hsize : 0 < takers.size := by
        simpa [Array.size_pos_iff] using htakers
      apply (Emission.ensures_draw hsize (by decide)).bind
      intro pick hpick
      obtain ⟨share, hshare, hroom⟩ := h.exists_taker hpick.2
      have hroom' : (shares.getD (takers.getD pick 0) default).room ≠ 0 := by
        rwa [getD_of_getElem? hshare]
      refine (Emission.ensures_draw (lt_justAbove_of_le (by decide) (by omega)) (by decide)).bind
        fun chunk hchunk => ?_
      have hle := le_of_lt_justAbove hchunk.2
      exact ih (slack - chunk) (by omega) (h.give htotal hpick.2 (by omega) (by omega))

/-- Whatever the parts are to be given, the source can give it to them. By induction on the slack:
in each step one more part gets all that it is to be given. -/
theorem canYield_giveOut (htotal : total < unbounded) {wanted : List Nat}
    (hsum : wanted.sum = total) {slack : Nat} {shares : Array Share} {takers : Array Nat}
    (h : Sharing parts total shares takers slack)
    (hw : List.Forall₂ (fun share n => share.given ≤ n ∧ n ≤ share.range.most)
      shares.toList wanted) :
    ∃ result, (giveOut .prescribed shares takers slack).CanYield result ∧
      result.toList.map Share.given = wanted := by
  induction slack using Nat.strong_induction_on generalizing shares takers with
  | h slack ih =>
    rcases Nat.eq_zero_or_pos slack with rfl | hpos
    · have hle : List.Forall₂ (· ≤ ·) (shares.toList.map Share.given) wanted := by
        rw [List.forall₂_map_left_iff]
        exact hw.imp fun _ _ h => h.1
      have hgiven := h.given_sum
      refine ⟨shares, ?_, eq_of_forall₂_le_of_sum_eq hle (by omega)⟩
      rw [giveOut_zero]
      exact Emission.canYield_pure shares
    · -- Some part has not been given what it is to be given: give it the rest at once.
      obtain ⟨place, share, n, hshare, hn, hlt, hfits⟩ := h.exists_lacking htotal hsum hw hpos.ne'
      obtain ⟨pick, hpick, hget⟩ := h.exists_pick hshare (by omega)
      have hgiven := h.given_sum
      have hsmall : min share.room slack < unbounded := by omega
      have hchunk := (lt_justAbove_iff hsmall).mpr hfits
      have hnext := h.give htotal.le hpick
        (by rw [hget, getD_of_getElem? hshare]; exact hfits.trans (Nat.min_le_left _ _))
        (hfits.trans (Nat.min_le_right _ _))
      rw [hget] at hnext
      -- The other parts still have what they had before.
      obtain ⟨result, hresult, hgives⟩ := ih (slack - (n - share.given)) (by omega) hnext <| by
        rw [Array.toList_modify]
        apply forall₂_modify hw
        intro share' n' hs hn' hrel
        obtain rfl : share = share' := Option.some.inj (hshare.symm.trans hs)
        obtain rfl : n = n' := Option.some.inj (hn.symm.trans hn')
        rw [Share.given_add, Share.range_add]
        omega
      refine ⟨result, ?_, hgives⟩
      have hsome : takers.isEmpty = false := by
        simpa [Array.size_pos_iff] using (Nat.zero_le pick).trans_lt hpick
      rw [giveOut_step _ hpos.ne' hsome]
      refine (Emission.canYield_draw (Nat.zero_le pick) hpick).bind ?_
      simp only [hget, getD_of_getElem? hshare]
      exact (Emission.canYield_draw (by omega) hchunk).bind hresult

end GiveOut

/-! ## Sharing out -/

section ShareOut

variable {σ : Type} {parts : List Extent} {total : Nat}

theorem mem_initialTakers {i : Nat} :
    i ∈ (initialTakers parts).toList ↔ ∃ e, parts[i]? = some e ∧ e.least < e.most := by
  simp only [initialTakers, List.mem_map, List.mem_filter, Prod.exists,
    List.mem_zipIdx_iff_getElem?, decide_eq_true_eq, exists_eq_right]

/-- No part is a taker twice, as the places of a list are in ascending order. -/
theorem initialTakers_nodup (parts : List Extent) : (initialTakers parts).toList.Nodup := by
  have hplaces : (parts.zipIdx.map Prod.snd).Nodup := by
    rw [List.zipIdx_map_snd]
    exact List.nodup_range'
  exact (List.filter_sublist.map _).nodup hplaces

/-- Every part starts with its least length. A sum below `unbounded` has not been capped. -/
theorem sharing_least (hsmall : (Extent.sumAll parts).least < unbounded)
    (hleast : (Extent.sumAll parts).least ≤ total) :
    Sharing parts total (parts.map Share.least).toArray (initialTakers parts)
      (total - (Extent.sumAll parts).least) := by
  have hexact : (Extent.sumAll parts).least = (parts.map Extent.least).sum := by
    have := Extent.least_sumAll parts
    omega
  have hmap : (parts.map Share.least).map Share.given = parts.map Extent.least := by
    rw [List.map_map]
    rfl
  refine ⟨?_, ?_, ?_, initialTakers_nodup parts, ?_⟩
  · rw [List.map_map]
    exact List.map_id parts
  · intro share hshare
    obtain ⟨e, -, rfl⟩ := List.mem_map.mp hshare
    exact ⟨Nat.le_refl _, e.least_le_most⟩
  · rw [hmap]
    omega
  · intro i
    rw [mem_initialTakers, List.getElem?_map]
    simp only [Option.map_eq_some_iff, exists_exists_and_eq_and]
    refine exists_congr fun e => and_congr_right fun he => ?_
    have hpart : e.least ≤ (Extent.sumAll parts).least := by
      have := List.single_le_sum (fun n _ => Nat.zero_le n) _
        (List.mem_map_of_mem (f := Extent.least) (List.mem_of_getElem? he))
      omega
    exact (Share.room_ne_zero_iff (show (Share.least e).given < unbounded from
      hpart.trans_lt hsmall)).symm

/-- What is shared out lies in the ranges and adds up, and nothing else goes wrong than a length out
of range. A sum that has been capped is above every length below `unbounded`. -/
theorem shareOut_ensures (source : RandomSource σ) (htotal : total < unbounded)
    {E : EmissionError → Prop} (hE : total ∉ Extent.sumAll parts → E (.infeasible total)) :
    (shareOut source parts total).Ensures
      (fun lengths => List.Forall₂ (fun e n => n ∈ e) parts lengths ∧ lengths.sum = total) E := by
  rw [shareOut]
  split
  next hrange =>
    refine Emission.ensures_throw (hE fun hin => ?_)
    rw [Extent.mem_iff] at hin
    omega
  next hrange =>
    rw [not_or, Nat.not_lt, Nat.not_lt] at hrange
    have hmost : total ≤ (parts.map Extent.most).sum := by
      have := Extent.most_sumAll parts
      omega
    have hstart := sharing_least (hrange.1.trans_lt htotal) hrange.1
    refine (giveOut_ensures source htotal.le hmost hstart).bind
      fun shares h => Emission.ensures_pure ?_
    obtain ⟨takers, h⟩ := h
    rw [Array.toList_map, ← h.ranges, List.forall₂_map_left_iff, List.forall₂_map_right_iff,
      List.forall₂_same]
    exact ⟨h.given_mem, h.given_sum⟩

/-- A length in the range of the parts is never refused, not even `unbounded`. Where the least
lengths reach it, there is nothing to be given out. -/
theorem exists_shareOut_of_mem (source : RandomSource σ) (hin : total ∈ Extent.sumAll parts)
    (s : σ) : ∃ lengths s', shareOut source parts total s = .ok lengths s' := by
  obtain ⟨hleast, hmost⟩ := hin
  have htotal : total ≤ unbounded := hmost.trans (Extent.most_le_unbounded _)
  have hreach : total ≤ (parts.map Extent.most).sum := by
    have := Extent.most_sumAll parts
    omega
  have hgive : (giveOut source (parts.map Share.least).toArray (initialTakers parts)
      (total - (Extent.sumAll parts).least)).Ensures (fun _ => True) fun _ => False := by
    rcases Nat.lt_or_ge (Extent.sumAll parts).least unbounded with hsmall | hlarge
    · exact (giveOut_ensures source htotal hreach (sharing_least hsmall hleast)).mono
        fun _ _ => trivial
    · rw [Nat.sub_eq_zero_of_le (htotal.trans hlarge), giveOut_zero]
      exact Emission.ensures_pure trivial
  have hshare : (shareOut source parts total).Ensures (fun _ => True) fun _ => False := by
    rw [shareOut, if_neg (by omega)]
    exact hgive.bind fun _ _ => Emission.ensures_pure trivial
  obtain ⟨lengths, s', hok, -⟩ := hshare.exists_ok s
  exact ⟨lengths, s', hok⟩

/-- Every way to split a length into lengths that the parts allow can come about. Every part is
given at least the least length that it starts with. -/
theorem canYield_shareOut (htotal : total < unbounded) {lengths : List Nat}
    (h : List.Forall₂ (fun e n => n ∈ e) parts lengths) (hsum : lengths.sum = total) :
    (shareOut .prescribed parts total).CanYield lengths := by
  have hrange := Extent.admits_sumAll (h.imp fun _ _ => Extent.admits_of_mem)
  rw [hsum] at hrange
  obtain ⟨hleast, hmost⟩ := hrange.mem htotal
  have hwanted : List.Forall₂ (fun share n => share.given ≤ n ∧ n ≤ share.range.most)
      (parts.map Share.least) lengths := by
    rw [List.forall₂_map_left_iff]
    exact h
  obtain ⟨result, hresult, rfl⟩ :=
    canYield_giveOut htotal hsum (sharing_least (hleast.trans_lt htotal) hleast) hwanted
  rw [shareOut, if_neg (by omega)]
  refine hresult.bind ?_
  rw [← Array.toList_map]
  exact Emission.canYield_pure _

end ShareOut

end Exemplar
