import Exemplar.Emission.Emitter
import Exemplar.Proofs.Emission.Sharing
import Exemplar.Proofs.Language

/-!
# Emitters and languages

An emitter is put together as its tree is, and so is the language. For each way to put emitters
together there are two rules: what the emitter yields lies in the language, and what lies in the
language can be yielded. By induction on the tree its emitter yields just what the tree describes.

Pieces of a repeated string may be empty, so a string can be cut up in ways that differ in the
number of pieces. Without an upper limit an emitter takes no more pieces than the string has
characters, and a string that is cut up more finely loses nothing but empty pieces.

## Main definitions

* `Emitter.Sound e l`: whatever `e` yields is a string of `l` with the length asked for
* `Emitter.Complete e l`: every string of `l` can be yielded

## Main results

* `Tree.emitter_sound`: the emitter of a tree yields what the tree describes
* `Tree.emitter_complete`: the emitter of a tree can yield everything that the tree describes
-/

namespace Exemplar

/-! ## Cutting up a string -/

/-- Of the pieces of a string, empty ones can be left out down to the number of characters. There is
one to leave out unless as many pieces are wanted as there are. -/
theorem exists_fewer_pieces {α : Type} {ws : List (List α)} {k : Nat}
    (h : ws.flatten.length ≤ k) (hk : k ≤ ws.length) :
    ∃ ws' : List (List α), ws'.Sublist ws ∧ ws'.length = k ∧ ws'.flatten = ws.flatten := by
  induction ws generalizing k with
  | nil => exact ⟨[], .refl _, (Nat.le_zero.mp hk).symm, rfl⟩
  | cons w ws ih =>
    rw [List.length_cons] at hk
    rw [List.flatten_cons, List.length_append] at h
    by_cases hw : w = []
    · subst hw
      rcases Nat.lt_or_eq_of_le hk with hlt | rfl
      · obtain ⟨ws', hsub, hlen, hflat⟩ := ih (by simpa using h) (Nat.le_of_lt_succ hlt)
        exact ⟨ws', hsub.cons _, hlen, by simpa using hflat⟩
      · exact ⟨[] :: ws, .refl _, rfl, rfl⟩
    · have hpos := List.length_pos_iff.mpr hw
      obtain ⟨ws', hsub, hlen, hflat⟩ := ih (k := k - 1) (by omega) (by omega)
      refine ⟨w :: ws', hsub.cons_cons w, ?_, ?_⟩
      · rw [List.length_cons]
        omega
      · rw [List.flatten_cons, List.flatten_cons, hflat]

/-! ## The number of occurrences -/

/-- The least number of occurrences to draw from is no greater than any number that makes up the
length. -/
theorem quotientUp_le {n b k : Nat} (hn : n < unbounded) (h0 : k = 0 → n = 0)
    (h : b = unbounded ∨ n ≤ k * b) : quotientUp n b ≤ k := by
  rw [quotientUp]
  by_cases hzero : n = 0
  · rw [if_pos hzero]
    exact Nat.zero_le k
  have hk : 0 < k := Nat.pos_of_ne_zero fun hk => hzero (h0 hk)
  rw [if_neg hzero]
  by_cases hb : b = unbounded
  · rw [if_neg (by simp only [hb, unbounded] at hn ⊢; omega), if_pos hb]
    exact hk
  · have hle := h.resolve_left hb
    have hpos : 0 < b := Nat.pos_of_ne_zero fun hb => hzero (by simpa [hb] using hle)
    rw [if_neg (by omega), if_neg hb, Nat.div_le_iff_le_mul_add_pred hpos]
    have := Nat.mul_comm k b
    omega

/-- The least number of occurrences can be counted, as no more of them are needed than there are
characters. -/
theorem quotientUp_lt {n b k : Nat} (hn : n < unbounded) (h0 : k = 0 → n = 0)
    (h : b = unbounded ∨ n ≤ k * b) : quotientUp n b < unbounded := by
  rcases Nat.lt_or_ge k unbounded with hk | hk
  · exact (quotientUp_le hn h0 h).trans_lt hk
  · refine (quotientUp_le hn id ?_).trans_lt hn
    rcases h with h | h
    · exact .inl h
    · right
      rcases Nat.eq_zero_or_pos b with rfl | hb
      · simpa using h
      · exact Nat.le_mul_of_pos_right n hb

/-- The greatest number of occurrences to draw from is no less than any number that is not too long.
-/
theorem le_quotient {n b k : Nat} (hk : k * b ≤ n) :
    quotient n b = unbounded ∨ k ≤ quotient n b ∧ quotient n b ≤ n := by
  rw [quotient]
  split
  · exact .inl rfl
  next hb =>
    rw [not_or] at hb
    have hpos := Nat.pos_of_ne_zero hb.1
    exact .inr ⟨(Nat.le_div_iff_mul_le hpos).mpr hk, Nat.div_le_self n b⟩

namespace Emitter

/-- The numbers of occurrences to draw from are all allowed. -/
theorem admits_of_occurrences? {occurs once : Extent} {n lowest highest : Nat} (hn : n < unbounded)
    (h : occurrences? occurs once n = some (lowest, highest)) :
    lowest ≤ highest ∧ highest < unbounded ∧ ∀ k, lowest ≤ k → k ≤ highest → occurs.Admits k := by
  have hmost := occurs.most_le_unbounded
  simp only [occurrences?] at h
  split at h
  · cases h
  next hrange =>
    obtain ⟨rfl, rfl⟩ := Prod.mk.inj (Option.some.inj h)
    rw [not_or, Nat.not_lt] at hrange
    obtain ⟨hle, hne⟩ := hrange
    split
    next hopen => exact ⟨Nat.le_max_left _ _, by omega, fun k _ _ => ⟨by omega, .inl (by omega)⟩⟩
    next hclosed => exact ⟨hle, by omega, fun k _ _ => ⟨by omega, .inr (by omega)⟩⟩

/-- What is drawn lies between the ends. -/
theorem ensures_draw_of_occurrences? {σ : Type} {source : RandomSource σ} {occurs once : Extent}
    {n lowest highest : Nat} {E : EmissionError → Prop} (hn : n < unbounded)
    (h : occurrences? occurs once n = some (lowest, highest)) :
    (draw source lowest (justAbove highest)).Ensures (fun k => lowest ≤ k ∧ k ≤ highest) E := by
  obtain ⟨hle, hsmall, -⟩ := admits_of_occurrences? hn h
  have hdraw : (draw source lowest (justAbove highest)).Ensures
      (fun k => lowest ≤ k ∧ k < justAbove highest) E :=
    Emission.ensures_draw ((lt_justAbove_iff hsmall).mpr hle) (hle.trans_lt hsmall)
  exact hdraw.mono fun k hk => ⟨hk.1, (lt_justAbove_iff hsmall).mp hk.2⟩

/-- Among the numbers of occurrences to draw from is every one that makes up the length, or at
least the number of characters. -/
theorem occurrences?_of_admits {occurs once : Extent} {n k : Nat}
    (hleast : occurs.least < unbounded) (hn : n < unbounded) (hk : occurs.Admits k)
    (h0 : k = 0 → n = 0) (hl : k * once.least ≤ n)
    (hm : once.most = unbounded ∨ n ≤ k * once.most) :
    ∃ lowest highest, occurrences? occurs once n = some (lowest, highest) ∧ lowest ≤ k ∧
      lowest ≤ highest ∧ (k ≤ highest ∨ n ≤ highest) := by
  obtain ⟨hkl, hkm⟩ := hk
  have hup := quotientUp_le hn h0 hm
  have hsmall := quotientUp_lt hn h0 hm
  have hdown := le_quotient hl
  have hmost := occurs.most_le_unbounded
  simp only [occurrences?]
  -- The range is not empty: its lower end is at most `k` and its upper end is not below that.
  rw [if_neg (by omega)]
  refine ⟨_, _, rfl, by omega, ?_, ?_⟩
  · split <;> omega
  · split <;> omega

/-! ## What is yielded lies in the language -/

section Sound

variable {σ : Type} {source : RandomSource σ}

/-- Whatever the emitter yields is a string of the language with the length asked for, and it fails
for local reasons only. -/
def Sound (e : Emitter σ) (l : Language Char) : Prop :=
  ∀ n < unbounded, (e.emit n).Ensures (fun w => w ∈ l ∧ w.length = n) (·.isLocal = true)

theorem character_ensures {set : CharSet} (hset : set.isEmpty = false) {E : EmissionError → Prop} :
    (character source set).Ensures (fun w => ∃ c ∈ set, w = [c]) E := by
  have hsize : 0 < set.size := by
    simpa [CharSet.isEmpty, CharSet.size, Array.size_pos_iff] using hset
  refine (Emission.ensures_draw hsize (by decide)).bind fun i hi => Emission.ensures_pure ?_
  have hlt : i < set.chars.size := hi.2
  have hget : set.get? i = some set.chars[i] := Array.getElem?_eq_getElem hlt
  exact ⟨set.chars[i], Array.getElem_mem_toList hlt, by rw [hget]; rfl⟩

/-- Single characters one after the other make up a string of as many characters. -/
theorem mem_and_length_of_singletons {α β : Type} {S : α → Prop} {l : List β} {ws : List (List α)}
    (h : List.Forall₂ (fun _ w => ∃ c, S c ∧ w = [c]) l ws) :
    (∀ c ∈ ws.flatten, S c) ∧ ws.flatten.length = l.length := by
  induction h with
  | nil => simp
  | cons hw _ ih =>
    obtain ⟨c, hc, rfl⟩ := hw
    refine ⟨?_, by simp [ih.2]⟩
    rw [List.flatten_cons, List.singleton_append, List.forall_mem_cons]
    exact ⟨hc, ih.1⟩

/-- A leaf yields characters of its class, even when it has to occur `unbounded` times. It fails
where it does not occur so often, and where there are no characters. -/
theorem ofLeaf_ensures (alphabet : Alphabet) (cls : CharClass) (m : Mark) (n : Nat) :
    ((ofLeaf source alphabet cls m).emit n).Ensures
      (fun w => (∀ c ∈ w, c ∈ cls.resolve alphabet) ∧ w.length = n ∧ n ∈ m.occurs)
      (fun x => n ∉ m.occurs ∧ x = .infeasible n ∨ n ≠ 0 ∧ (cls.resolve alphabet).isEmpty = true ∧
        x = .emptyClass (Tree.leaf cls m).describe) := by
  simp only [ofLeaf]
  split
  next hn => exact Emission.ensures_throw (.inl ⟨hn, rfl⟩)
  next hn =>
    rw [not_not] at hn
    split
    next h0 => exact Emission.ensures_pure ⟨by simp, h0.symm, hn⟩
    next h0 =>
    split
    next hset => exact Emission.ensures_throw (.inr ⟨h0, hset, rfl⟩)
    next hset =>
      have htexts : ((List.replicate n (cls.resolve alphabet)).mapM (character source)).Ensures
          (List.Forall₂ (fun _ w => ∃ c, c ∈ cls.resolve alphabet ∧ w = [c])
            (List.replicate n (cls.resolve alphabet)))
          (fun x => n ∉ m.occurs ∧ x = .infeasible n ∨ n ≠ 0 ∧
            (cls.resolve alphabet).isEmpty = true ∧
              x = .emptyClass (Tree.leaf cls m).describe) :=
        Emission.Ensures.mapM fun set hmem => by
          rw [List.eq_of_mem_replicate hmem]
          exact character_ensures (by simpa using hset)
      refine htexts.bind fun ws hws => Emission.ensures_pure ?_
      obtain ⟨hmem, hlen⟩ := mem_and_length_of_singletons hws
      exact ⟨hmem, by rw [hlen, List.length_replicate], hn⟩

theorem sound_ofLeaf (alphabet : Alphabet) (cls : CharClass) (m : Mark) :
    (ofLeaf source alphabet cls m).Sound ((Tree.leaf cls m).language (.drawn alphabet)) :=
  fun n _ => (ofLeaf_ensures alphabet cls m n).imp
    (fun _ hw =>
      ⟨Tree.mem_language_leaf.mpr ⟨hw.2.1 ▸ Extent.admits_of_mem hw.2.2, hw.1⟩, hw.2.1⟩)
    (by rintro x (⟨-, rfl⟩ | ⟨-, -, rfl⟩) <;> rfl)

/-- Sound emitters that are each given a length yield strings of these lengths. -/
theorem ensures_mapM_zip {M : Meaning} {es : List (Emitter σ)} {ts : List Tree} {ns : List Nat}
    (h : List.Forall₂ (fun e t => e.Sound (t.language M)) es ts) (hlen : ns.length = es.length)
    (hsmall : ∀ n ∈ ns, n < unbounded) :
    ((es.zip ns).mapM fun ((e, n) : Emitter σ × Nat) => e.emit n).Ensures
      (fun ws => List.Forall₂ (fun (t : Tree) w => w ∈ t.language M) ts ws ∧
        ws.map List.length = ns)
      (·.isLocal = true) := by
  induction h generalizing ns with
  | nil =>
    rw [List.eq_nil_of_length_eq_zero hlen]
    exact Emission.ensures_pure ⟨.nil, rfl⟩
  | cons he _ ih =>
    obtain ⟨n, ns, rfl⟩ := List.exists_cons_of_length_eq_add_one hlen
    rw [List.forall_mem_cons] at hsmall
    rw [List.zip_cons_cons, List.mapM_cons]
    apply (he n hsmall.1).bind
    intro w hw
    refine (ih (Nat.succ.inj hlen) hsmall.2).bind fun ws hws => Emission.ensures_pure ?_
    exact ⟨.cons hw.1 hws.1, by rw [List.map_cons, hw.2, hws.2]⟩

/-- What a sequence of sound emitters yields is made of what the trees describe, one after the
other. No part is longer than the whole. -/
theorem sound_sequence {M : Meaning} {es : List (Emitter σ)} {ts : List Tree}
    (h : List.Forall₂ (fun e t => e.Sound (t.language M)) es ts) :
    (Emitter.sequence source es).Sound (Tree.languageOfParts M ts) := by
  intro n hn
  apply (shareOut_ensures source hn (E := (·.isLocal = true)) fun _ => rfl).bind
  intro ns hns
  obtain ⟨hin, hsum⟩ := hns
  have hlen : ns.length = es.length := by simpa using hin.length_eq.symm
  have hsmall : ∀ m ∈ ns, m < unbounded := fun m hm => lt_of_mem_of_sum_lt hm (hsum ▸ hn)
  refine (ensures_mapM_zip h hlen hsmall).bind fun ws hws => Emission.ensures_pure ?_
  exact ⟨Tree.mem_languageOfParts.mpr ⟨ws, hws.1, rfl⟩, by rw [List.length_flatten, hws.2, hsum]⟩

theorem sound_choice {l : Language Char} {es : List (Emitter σ)} (h : ∀ e ∈ es, e.Sound l) :
    (Emitter.choice source es).Sound l := by
  intro n hn
  apply Emission.ensures_shuffled.bind
  intro candidates hperm
  refine Emission.ensures_firstOf rfl fun emission hemission => ?_
  obtain ⟨e, he, rfl⟩ := List.mem_map.mp hemission
  exact h e (List.mem_of_mem_filter (hperm.mem_iff.mp he)) n hn

theorem mem_and_lengths {l : Language Char} {ns : List Nat} {ws : List (List Char)}
    (h : List.Forall₂ (fun n w => w ∈ l ∧ w.length = n) ns ws) :
    (∀ w ∈ ws, w ∈ l) ∧ ws.map List.length = ns := by
  induction h with
  | nil => simp
  | cons hw _ ih => exact ⟨List.forall_mem_cons.mpr ⟨hw.1, ih.1⟩, by rw [List.map_cons, hw.2, ih.2]⟩

/-- What a repeated emitter yields is cut up into an allowed number of pieces, each one yielded for
the share of the length that it was given. -/
theorem sound_repeated {l : Language Char} {occurs : Extent} {once : Emitter σ}
    (h : once.Sound l) : (Emitter.repeated source occurs once).Sound (occurs.repeated l) := by
  intro n hn
  simp only [Emitter.repeated]
  split
  · exact Emission.ensures_throw rfl
  split
  next h0 =>
    refine Emission.ensures_pure ⟨Extent.mem_repeated.mpr ⟨[], ?_, by simp, rfl⟩, h0.1.symm⟩
    exact ⟨h0.2.le, .inr (Nat.zero_le _)⟩
  split
  · exact Emission.ensures_throw rfl
  next lowest highest hsome =>
    refine (ensures_draw_of_occurrences? hn hsome).bind fun count hcount => ?_
    apply (shareOut_ensures source hn (E := (·.isLocal = true)) fun _ => rfl).bind
    intro ns hns
    obtain ⟨hin, hsum⟩ := hns
    have hcount' : ns.length = count := by simpa using hin.length_eq.symm
    have htexts : (ns.mapM once.emit).Ensures
        (List.Forall₂ (fun n w => w ∈ l ∧ w.length = n) ns) (·.isLocal = true) :=
      Emission.Ensures.mapM fun m hm =>
        h m (lt_of_mem_of_sum_lt hm (hsum ▸ hn))
    refine htexts.bind fun ws hws => Emission.ensures_pure ⟨?_, ?_⟩
    · refine Extent.mem_repeated.mpr ⟨ws, ?_, ?_, rfl⟩
      · rw [← hws.length_eq, hcount']
        exact (admits_of_occurrences? hn hsome).2.2 count hcount.1 hcount.2
      · intro w hw
        exact (mem_and_lengths hws).1 w hw
    · rw [List.length_flatten, (mem_and_lengths hws).2, hsum]

/-- No number of occurrences makes up a length that cannot be counted. -/
theorem occurrences?_unbounded (occurs once : Extent) :
    occurrences? occurs once unbounded = none := by
  have hleast := occurs.least_le_most
  have hmost := occurs.most_le_unbounded
  have hup : quotientUp unbounded once.most = unbounded := by
    rw [quotientUp, if_neg (by decide), if_pos (.inr rfl)]
  rw [occurrences?, hup, if_pos]
  omega

/-- A string that occurs a number of times has a length of the emitter, below `unbounded`. -/
theorem repeated_ensures_length (occurs : Extent) (once : Emitter σ) (n : Nat) :
    ((Emitter.repeated source occurs once).emit n).Ensures
      (fun _ => n ∈ occurs.mul once.length ∧ n < unbounded) (fun _ => True) := by
  simp only [Emitter.repeated]
  split
  · exact Emission.ensures_throw trivial
  next hn =>
    rw [not_not] at hn
    rcases Nat.lt_or_ge n unbounded with hsmall | hlarge
    · exact Emission.ensures_of_forall fun _ => ⟨hn, hsmall⟩
    · obtain rfl : n = unbounded := Nat.le_antisymm (hn.2.trans (Extent.most_le_unbounded _)) hlarge
      rw [if_neg (by simp [unbounded]), occurrences?_unbounded]
      exact Emission.ensures_throw trivial

end Sound

/-! ## What lies in the language can be yielded -/

section Complete

open RandomSource (prescribed)

/-- The lengths of the strings of the language are those of the emitter, and every string that is
not too long can be yielded. -/
structure Complete (e : Emitter (List Answer)) (l : Language Char) : Prop where
  length_admits : ∀ w ∈ l, e.length.Admits w.length
  canYield : ∀ w ∈ l, w.length < unbounded → (e.emit w.length).CanYield w

theorem character_canYield {set : CharSet} {c : Char} (hc : c ∈ set) :
    (character prescribed set).CanYield [c] := by
  obtain ⟨i, hi, rfl⟩ := List.mem_iff_getElem.mp (CharSet.mem_iff.mp hc)
  have hi' : i < set.chars.size := hi
  have hget : set.get? i = some set.chars[i] := Array.getElem?_eq_getElem hi'
  refine (Emission.canYield_draw (Nat.zero_le i) hi').bind ?_
  rw [hget]
  exact Emission.canYield_pure _

/-- The emitter of a leaf can yield every string that the leaf describes. -/
theorem complete_ofLeaf (alphabet : Alphabet) (cls : CharClass) (m : Mark) :
    (ofLeaf prescribed alphabet cls m).Complete ((Tree.leaf cls m).language (.drawn alphabet)) := by
  refine ⟨fun w hw => (Tree.mem_language_leaf.mp hw).1, fun w hw hsmall => ?_⟩
  obtain ⟨hn, hmem⟩ := Tree.mem_language_leaf.mp hw
  simp only [ofLeaf]
  rw [if_neg (not_not.mpr (hn.mem hsmall))]
  by_cases h0 : w.length = 0
  · rw [if_pos h0, List.eq_nil_of_length_eq_zero h0]
    exact Emission.canYield_pure []
  rw [if_neg h0]
  obtain ⟨c, hc⟩ := List.exists_mem_of_length_pos (Nat.pos_of_ne_zero h0)
  have hset : (cls.resolve alphabet).isEmpty = false :=
    CharSet.isEmpty_eq_false_of_mem (hmem c hc)
  simp only [hset]
  have hchars : List.Forall₂ (fun set x => (character prescribed set).CanYield x)
      (List.replicate w.length (cls.resolve alphabet)) (w.map ([·])) := by
    rw [List.forall₂_map_right_iff]
    exact forall₂_replicate fun c hc => character_canYield (hmem c hc)
  have hflat : (w.map ([·])).flatten = w := by simp [← List.flatMap_def]
  refine (Emission.CanYield.mapM hchars).bind ?_
  rw [hflat]
  exact Emission.canYield_pure w

/-- Complete emitters that are given the lengths of some strings can yield these strings. -/
theorem canYield_mapM_zip {M : Meaning} {es : List (Emitter (List Answer))} {ts : List Tree}
    {ws : List (List Char)} (h : List.Forall₂ (fun e t => e.Complete (t.language M)) es ts)
    (hws : List.Forall₂ (fun (t : Tree) w => w ∈ t.language M) ts ws)
    (hsmall : ∀ w ∈ ws, w.length < unbounded) :
    ((es.zip (ws.map List.length)).mapM fun ((e, n) : Emitter (List Answer) × Nat) =>
      e.emit n).CanYield ws := by
  apply Emission.CanYield.mapM
  induction h generalizing ws with
  | nil =>
    cases hws
    exact .nil
  | cons he _ ih =>
    cases hws with
    | cons hw hws =>
      rw [List.forall_mem_cons] at hsmall
      exact .cons (he.canYield _ hw hsmall.1) (ih hws hsmall.2)

/-- The lengths of strings that are described are lengths of the emitters. -/
theorem forall₂_admits {M : Meaning} {es : List (Emitter (List Answer))} {ts : List Tree}
    {ws : List (List Char)} (h : List.Forall₂ (fun e t => e.Complete (t.language M)) es ts)
    (hws : List.Forall₂ (fun (t : Tree) w => w ∈ t.language M) ts ws) :
    List.Forall₂ Extent.Admits (es.map (·.length)) (ws.map List.length) := by
  induction h generalizing ws with
  | nil =>
    cases hws
    exact .nil
  | cons he _ ih =>
    cases hws with
    | cons hw hws => exact .cons (he.length_admits _ hw) (ih hws)

theorem length_lt_of_flatten {ws : List (List Char)} (h : ws.flatten.length < unbounded) :
    ∀ w ∈ ws, w.length < unbounded := by
  intro w hw
  rw [List.length_flatten] at h
  exact lt_of_mem_of_sum_lt (List.mem_map_of_mem hw) h

/-- Lengths that are not too large lie in the extents that stand for them. -/
theorem forall₂_mem_of_admits {extents : List Extent} {ns : List Nat}
    (h : List.Forall₂ Extent.Admits extents ns) (hsmall : ns.sum < unbounded) :
    List.Forall₂ (fun e n => n ∈ e) extents ns := by
  induction h with
  | nil => exact .nil
  | cons hn _ ih =>
    rw [List.sum_cons] at hsmall
    exact .cons (hn.mem (by omega)) (ih (by omega))

/-- A sequence of complete emitters can yield every string that the trees describe together. -/
theorem complete_sequence {M : Meaning} {es : List (Emitter (List Answer))} {ts : List Tree}
    (h : List.Forall₂ (fun e t => e.Complete (t.language M)) es ts) :
    (Emitter.sequence prescribed es).Complete (Tree.languageOfParts M ts) := by
  constructor
  · intro w hw
    obtain ⟨ws, hws, rfl⟩ := Tree.mem_languageOfParts.mp hw
    rw [List.length_flatten]
    exact Extent.admits_sumAll (forall₂_admits h hws)
  · intro w hw hsmall
    obtain ⟨ws, hws, rfl⟩ := Tree.mem_languageOfParts.mp hw
    have hsum : (ws.map List.length).sum < unbounded := by rwa [← List.length_flatten]
    have hin := forall₂_mem_of_admits (forall₂_admits h hws) hsum
    refine (canYield_shareOut hsmall hin List.length_flatten.symm).bind ?_
    exact (canYield_mapM_zip h hws (length_lt_of_flatten hsmall)).bind (Emission.canYield_pure _)

/-- A choice of complete emitters can yield what any of its members does, when this member is tried
first. -/
theorem complete_choice {M : Meaning} {es : List (Emitter (List Answer))} {ts : List Tree}
    (h : List.Forall₂ (fun e t => e.Complete (t.language M)) es ts) :
    (Emitter.choice prescribed es).Complete (Tree.languageOfMembers M ts) := by
  have hmember : ∀ w ∈ Tree.languageOfMembers M ts, ∃ e ∈ es, ∃ l, e.Complete l ∧ w ∈ l := by
    intro w hw
    obtain ⟨t, ht, hwt⟩ := Tree.mem_languageOfMembers.mp hw
    clear hw
    induction h with
    | nil => cases ht
    | cons he _ ih =>
      rcases List.mem_cons.mp ht with rfl | ht
      · exact ⟨_, List.mem_cons_self, _, he, hwt⟩
      · obtain ⟨e, hmem, hl⟩ := ih ht
        exact ⟨e, List.mem_cons_of_mem _ hmem, hl⟩
  constructor
  · intro w hw
    obtain ⟨e, he, l, hl, hwl⟩ := hmember w hw
    exact Extent.admits_hullAll (List.mem_map_of_mem he) (hl.length_admits w hwl)
  · intro w hw hsmall
    obtain ⟨e, he, l, hl, hwl⟩ := hmember w hw
    have hcandidate : e ∈ es.filter (w.length ∈ ·.length) := by
      rw [List.mem_filter, decide_eq_true_eq]
      exact ⟨he, (hl.length_admits w hwl).mem hsmall⟩
    obtain ⟨before, after, hsplit⟩ := List.append_of_mem hcandidate
    have hperm : (e :: (before ++ after)).Perm (es.filter (w.length ∈ ·.length)) := by
      rw [hsplit]
      exact List.perm_middle.symm
    refine (Emission.canYield_shuffled hperm).bind ?_
    exact Emission.canYield_firstOf (hl.canYield w hwl hsmall)

/-- What is cut up in an allowed number of pieces can be cut up in a number of pieces to draw from.
Where there are more pieces than can be drawn, some of them are empty. -/
theorem exists_pieces {l : Language Char} {occurs once : Extent} {ws : List (List Char)}
    (hleast : occurs.least < unbounded) (hsmall : ws.flatten.length < unbounded)
    (hn : occurs.Admits ws.length) (hws : ∀ w ∈ ws, w ∈ l)
    (hlength : ∀ w ∈ l, once.Admits w.length) :
    ∃ lowest highest, occurrences? occurs once ws.flatten.length = some (lowest, highest) ∧
      ∃ ws' : List (List Char), lowest ≤ ws'.length ∧ ws'.length ≤ highest ∧
        (∀ w ∈ ws', w ∈ l) ∧ ws'.flatten = ws.flatten := by
  have hpieces : ∀ n ∈ ws.map List.length, once.Admits n := by
    rw [List.forall_mem_map]
    exact fun w hw => hlength w (hws w hw)
  have hflat : ws.flatten.length = (ws.map List.length).sum := List.length_flatten
  have h0 : ws.length = 0 → ws.flatten.length = 0 := fun h => by
    simp [List.eq_nil_of_length_eq_zero h]
  have hl : ws.length * once.least ≤ ws.flatten.length := by
    have := Extent.length_mul_le_sum fun n hn => (hpieces n hn).1
    rwa [List.length_map, ← hflat] at this
  have hm : once.most = unbounded ∨ ws.flatten.length ≤ ws.length * once.most := by
    by_cases hopen : once.most = unbounded
    · exact .inl hopen
    · have := Extent.sum_le_length_mul fun n hn => (hpieces n hn).2.resolve_left hopen
      rw [List.length_map, ← hflat] at this
      exact .inr this
  obtain ⟨lowest, highest, hsome, hlow, hle, hhigh⟩ :=
    occurrences?_of_admits hleast hsmall hn h0 hl hm
  refine ⟨lowest, highest, hsome, ?_⟩
  by_cases hk : ws.length ≤ highest
  · exact ⟨ws, hlow, hk, hws, rfl⟩
  · obtain ⟨ws', hsub, hlen, hflat'⟩ := exists_fewer_pieces (hhigh.resolve_left hk) (by omega)
    exact ⟨ws', hlen ▸ hle, hlen.le, fun w hw => hws w (hsub.subset hw), hflat'⟩

/-- A repeated emitter that is complete can yield everything that is cut up into an allowed number
of pieces, though perhaps in fewer of them. -/
theorem complete_repeated {l : Language Char} {occurs : Extent} {once : Emitter (List Answer)}
    (h : once.Complete l) (hleast : occurs.least < unbounded) :
    (Emitter.repeated prescribed occurs once).Complete (occurs.repeated l) := by
  have hlength : ∀ w ∈ occurs.repeated l, (occurs.mul once.length).Admits w.length := fun w hw =>
    Tree.length_admits_repeated h.length_admits hw
  refine ⟨hlength, fun w hw hsmall => ?_⟩
  have hin := (hlength w hw).mem hsmall
  obtain ⟨ws, hn, hws, rfl⟩ := Extent.mem_repeated.mp hw
  simp only [Emitter.repeated]
  rw [if_neg (not_not.mpr hin)]
  by_cases h0 : ws.flatten.length = 0 ∧ occurs.least = 0
  · rw [if_pos h0, List.eq_nil_of_length_eq_zero h0.1]
    exact Emission.canYield_pure []
  rw [if_neg h0]
  -- The string may have to be cut up into fewer pieces.
  obtain ⟨lowest, highest, hsome, ws', hlow, hhigh, hws', hflat⟩ :=
    exists_pieces hleast hsmall hn hws h.length_admits
  rw [hsome]
  rw [← hflat] at hsmall ⊢
  have hlengths : List.Forall₂ Extent.Admits (List.replicate ws'.length once.length)
      (ws'.map List.length) := by
    rw [List.forall₂_map_right_iff]
    exact forall₂_replicate fun w hw => h.length_admits w (hws' w hw)
  have hsum : (ws'.map List.length).sum < unbounded := by rwa [← List.length_flatten]
  have hbound : ws'.length < justAbove highest :=
    (lt_justAbove_iff (admits_of_occurrences? (hflat ▸ hsmall) hsome).2.1).mpr hhigh
  have hyield : List.Forall₂ (fun n w => (once.emit n).CanYield w) (ws'.map List.length) ws' := by
    rw [List.forall₂_map_left_iff, List.forall₂_same]
    exact fun w hw => h.canYield w (hws' w hw) (length_lt_of_flatten hsmall w hw)
  -- The answers: the number of pieces, their lengths, and what each piece asks for.
  refine (Emission.canYield_draw hlow hbound).bind ?_
  refine (canYield_shareOut hsmall (forall₂_mem_of_admits hlengths hsum)
    List.length_flatten.symm).bind ?_
  exact (Emission.CanYield.mapM hyield).bind (Emission.canYield_pure _)

end Complete

end Emitter

/-! ## Trees -/

namespace Tree

open RandomSource (prescribed)

variable {σ : Type}

theorem emitters_eq_map (source : RandomSource σ) (alphabet : Alphabet) (ts : List Tree) :
    emitters source alphabet ts = ts.map (emitter source alphabet) := by
  induction ts with
  | nil => rfl
  | cons t ts ih => rw [emitters, ih, List.map_cons]

/-- The emitter of a tree has the lengths of the tree. -/
theorem length_emitter (source : RandomSource σ) (alphabet : Alphabet) (t : Tree) :
    (t.emitter source alphabet).length = t.length := by
  induction t with
  | leaf cls m => exact (length_leaf cls m).symm
  | sequence parts m ih =>
    rw [emitter, length, lengths_eq_map, emitters_eq_map]
    simp only [Emitter.repeated, Emitter.sequence, List.map_map, Function.comp_def]
    rw [List.map_congr_left ih]
  | choice members m ih =>
    rw [emitter, length, lengths_eq_map, emitters_eq_map]
    simp only [Emitter.repeated, Emitter.choice, List.map_map, Function.comp_def]
    rw [List.map_congr_left ih]

/-- The emitter of a tree yields what the tree describes. -/
theorem sound_emitter (source : RandomSource σ) (alphabet : Alphabet) (t : Tree) :
    (t.emitter source alphabet).Sound (t.language (.drawn alphabet)) := by
  induction t with
  | leaf cls m => exact Emitter.sound_ofLeaf alphabet cls m
  | sequence parts m ih =>
    rw [emitter, language, emitters_eq_map]
    apply Emitter.sound_repeated
    apply Emitter.sound_sequence
    rw [List.forall₂_map_left_iff, List.forall₂_same]
    exact ih
  | choice members m ih =>
    rw [emitter, language, emitters_eq_map]
    apply Emitter.sound_repeated
    apply Emitter.sound_choice
    rw [List.forall_mem_map]
    exact fun t ht n hn => (ih t ht n hn).mono fun w hw =>
      ⟨mem_languageOfMembers.mpr ⟨t, ht, hw.1⟩, hw.2⟩

/-- Whatever the emitter of a tree yields is described by the tree, whatever length is asked for.
Nodes with children fail for a length of `unbounded`, so only a leaf can yield it. -/
theorem emitter_sound {source : RandomSource σ} {alphabet : Alphabet} {t : Tree} {n : Nat}
    {s s' : σ} {w : List Char} (h : (t.emitter source alphabet).emit n s = .ok w s') :
    w ∈ t.language (.drawn alphabet) ∧ w.length = n ∧ n ∈ t.length := by
  cases t with
  | leaf cls m =>
    obtain ⟨hmem, hlen, hn⟩ := (Emitter.ofLeaf_ensures alphabet cls m n).of_ok h
    rw [mem_language_leaf, length_leaf]
    exact ⟨⟨hlen ▸ Extent.admits_of_mem hn, hmem⟩, hlen, hn⟩
  | sequence parts m =>
    have hn := (Emitter.repeated_ensures_length _ _ n).of_ok h
    obtain ⟨hw, hlen⟩ := (sound_emitter source alphabet _ n hn.2).of_ok h
    exact ⟨hw, hlen, length_emitter source alphabet (sequence parts m) ▸ hn.1⟩
  | choice members m =>
    have hn := (Emitter.repeated_ensures_length _ _ n).of_ok h
    obtain ⟨hw, hlen⟩ := (sound_emitter source alphabet _ n hn.2).of_ok h
    exact ⟨hw, hlen, length_emitter source alphabet (choice members m) ▸ hn.1⟩

/-- Whether the least number of occurrences of a node with children is one that can be counted. -/
def IsAttainable (t : Tree) : Prop :=
  match t with
  | leaf _ _ => True
  | sequence _ m | choice _ m => m.occurs.least < unbounded

/-- The emitter of a tree can yield everything that the tree describes and that is not too long. -/
theorem emitter_complete (alphabet : Alphabet) {t : Tree} (h : t.Every IsAttainable) :
    (t.emitter prescribed alphabet).Complete (t.language (.drawn alphabet)) := by
  induction t with
  | leaf cls m => exact Emitter.complete_ofLeaf alphabet cls m
  | sequence parts m ih =>
    obtain ⟨hleast, hparts⟩ := every_iff.mp h
    rw [emitter, language, emitters_eq_map]
    refine Emitter.complete_repeated (Emitter.complete_sequence ?_) hleast
    rw [List.forall₂_map_left_iff, List.forall₂_same]
    exact fun t ht => ih t ht (hparts t ht)
  | choice members m ih =>
    obtain ⟨hleast, hmembers⟩ := every_iff.mp h
    rw [emitter, language, emitters_eq_map]
    refine Emitter.complete_repeated (Emitter.complete_choice ?_) hleast
    rw [List.forall₂_map_left_iff, List.forall₂_same]
    exact fun t ht => ih t ht (hmembers t ht)

end Tree

end Exemplar
