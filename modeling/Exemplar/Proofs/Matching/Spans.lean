import Exemplar.Proofs.Matching.Matcher
import Exemplar.Proofs.Padding.Coherence

/-!
# Where trees stand in a string

A derivation stands where its text does, at the beginning or the end of the string if it is pinned
there. The tree of a pattern matches where one of its derivations stands. For trees that reading
builds this is put together as the tree is: the checks on what is pinned make sure that no pin is
lost inside of a sequence or a repetition.

## Main definitions

* `Derived.matcher`: where a derivation stands
* `Tree.spans`: where some derivation of a tree does

## Main results

* `Tree.spans_ofParts_cons`, `Tree.spans_ofMembers`, `Tree.spans_pinned_front`,
  `Tree.spans_pinned_back`: where trees stand that are put together
* `Pattern.Built.spans_repeated`: an atom with a quantifier, reduced or not
-/

namespace Exemplar

open Matcher

variable {s : List Char} {i j : Nat}

namespace Derived

variable {d e : Derived} {ds : List Derived}

/-- Where a derivation stands in a string. -/
def matcher (d : Derived) : Matcher where
  Matches s i j :=
    (word d.text).Matches s i j ∧ (d.front = true → i = 0) ∧ (d.back = true → j = s.length)
  bounded h := (word d.text).bounded h.1

theorem matcher_matches : d.matcher.Matches s i j ↔
    (word d.text).Matches s i j ∧ (d.front = true → i = 0) ∧ (d.back = true → j = s.length) :=
  Iff.rfl

@[simp] theorem matcher_join_nil : (join []).matcher = 1 := by
  ext s i j
  simp [matcher_matches, join]

theorem matcher_char (c : Char) : (char c).matcher = Matcher.char {c} := by
  ext s i j
  simp [matcher_matches, char, word]

theorem matcher_pinned_front : (d.pinned (.only .front .anchor)).matcher = atStart * d.matcher := by
  ext s i j
  rw [atStart_mul_matches, matcher_matches, matcher_matches]
  simp [pinned, Pins.only, Pin.anchor, Pin.free]
  tauto

theorem matcher_pinned_back : (d.pinned (.only .back .anchor)).matcher = d.matcher * atEnd := by
  ext s i j
  rw [mul_atEnd_matches, matcher_matches, matcher_matches]
  simp [pinned, Pins.only, Pin.anchor, Pin.free]
  tauto

/-- One derivation after the other, where neither is pinned to the side on which the other one
stands. -/
theorem matcher_join_cons (he : e.back = false) (hds : (join ds).front = false) :
    (join (e :: ds)).matcher = e.matcher * (join ds).matcher := by
  have htext : (join (e :: ds)).text = e.text ++ (join ds).text := by simp
  have hfront : (join (e :: ds)).front = e.front := rfl
  have hback : (join (e :: ds)).back = (join ds).back := by
    cases ds with
    | nil => exact he
    | cons d ds => simp [join, List.getLast?_cons_cons]
  ext s i j
  simp only [mul_matches, matcher_matches, htext, hfront, hback, word_append, he, hds]
  constructor
  · rintro ⟨⟨k, hw, hws⟩, hi, hj⟩
    have hnot {P : Prop} (h : false = true) : P := absurd h Bool.false_ne_true
    exact ⟨k, ⟨hw, hi, hnot⟩, hws, hnot, hj⟩
  · rintro ⟨k, ⟨hw, hi, -⟩, hws, -, hj⟩
    exact ⟨⟨k, hw, hws⟩, hi, hj⟩

end Derived

namespace Tree

variable {t u : Tree} {members parts : List Tree}

/-- Where in a string a derivation of the tree stands. -/
def spans (t : Tree) : Matcher where
  Matches s i j := ∃ d, t.Derives .accepted d ∧ d.matcher.Matches s i j
  bounded := fun ⟨d, _, h⟩ => d.matcher.bounded h

theorem spans_matches :
    t.spans.Matches s i j ↔ ∃ d, t.Derives .accepted d ∧ d.matcher.Matches s i j := Iff.rfl

theorem spans_congr (h : ∀ d, t.Derives .accepted d ↔ u.Derives .accepted d) :
    t.spans = u.spans := by
  ext s i j
  simp only [spans_matches, h]

@[simp] theorem spans_withSource (t : Tree) (source : String) :
    (t.withSource source).spans = t.spans :=
  spans_congr fun _ => derives_withSource

/-- A class matches one of its characters. -/
theorem spans_ofClass (cls : CharClass) : (ofClass cls).spans = char (Meaning.accepted cls) := by
  ext s i j
  have h : ∀ d, (ofClass cls).Derives .accepted d ↔ ∃ c ∈ Meaning.accepted cls, d = .char c :=
    fun d => (derives_iff_derivesOnce rfl rfl).trans derivesOnce_leaf
  simp only [spans_matches, h, char_matches]
  constructor
  · rintro ⟨_, ⟨c, hc, rfl⟩, hm⟩
    rw [Derived.matcher_char] at hm
    obtain ⟨_, rfl, hget, rfl⟩ := hm
    exact ⟨_, hc, hget, rfl⟩
  · rintro ⟨c, hc, hget, rfl⟩
    refine ⟨_, ⟨c, hc, rfl⟩, ?_⟩
    rw [Derived.matcher_char]
    exact ⟨c, rfl, hget, rfl⟩

theorem spans_empty : empty.spans = 1 := by
  ext s i j
  simp only [spans_matches, empty, derives_ofParts, List.forall₂_nil_left_iff]
  constructor
  · rintro ⟨_, ⟨_, rfl, rfl⟩, hm⟩
    rwa [Derived.matcher_join_nil] at hm
  · intro hm
    exact ⟨_, ⟨_, rfl, rfl⟩, by rwa [Derived.matcher_join_nil]⟩

theorem spans_ofMembers : (ofMembers members).spans = anyOf (members.map spans) := by
  ext s i j
  simp only [spans_matches, derives_ofMembers, anyOf_matches, List.mem_map]
  constructor
  · rintro ⟨d, ⟨t, ht, hd⟩, hm⟩
    exact ⟨_, ⟨t, ht, rfl⟩, d, hd, hm⟩
  · rintro ⟨_, ⟨t, ht, rfl⟩, d, hd, hm⟩
    exact ⟨d, ⟨t, ht, hd⟩, hm⟩

/-- A sequence of a single part matches what the part does. -/
theorem spans_ofParts_singleton : (ofParts [t]).spans = t.spans := by
  apply spans_congr
  intro d
  rw [derives_ofParts]
  constructor
  · rintro ⟨_, h, rfl⟩
    cases h with
    | cons hd hnil =>
      cases hnil
      rwa [Derived.join_singleton]
  · intro hd
    exact ⟨[d], .cons hd .nil, (Derived.join_singleton d).symm⟩

/-- A part in front of others. -/
theorem spans_ofParts_cons (ht : ∀ d, t.Derives .accepted d → d.back = false)
    (hparts : ∀ d, (ofParts parts).Derives .accepted d → d.front = false) :
    (ofParts (t :: parts)).spans = t.spans * (ofParts parts).spans := by
  ext s i j
  simp only [mul_matches, spans_matches]
  constructor
  · rintro ⟨d, hd, hm⟩
    obtain ⟨_, h, rfl⟩ := derives_ofParts.mp hd
    cases h with
    | cons he hes =>
      have hrest := derives_ofParts.mpr ⟨_, hes, rfl⟩
      rw [Derived.matcher_join_cons (ht _ he) (hparts _ hrest)] at hm
      obtain ⟨k, hm₁, hm₂⟩ := hm
      exact ⟨k, ⟨_, he, hm₁⟩, _, hrest, hm₂⟩
  · rintro ⟨k, ⟨e, he, hm₁⟩, d, hrest, hm₂⟩
    obtain ⟨es, hes, rfl⟩ := derives_ofParts.mp hrest
    refine ⟨_, derives_ofParts.mpr ⟨e :: es, .cons he hes, rfl⟩, ?_⟩
    rw [Derived.matcher_join_cons (ht _ he) (hparts _ hrest)]
    exact ⟨k, hm₁, hm₂⟩

/-! ## Pins -/

/-- A tree with an anchor at the front matches at the beginning, what it matches without it. -/
theorem spans_pinned_front : (t.pinned (.only .front .anchor)).spans = atStart * t.spans := by
  ext s i j
  simp only [atStart_mul_matches, spans_matches, derives_pinned]
  constructor
  · rintro ⟨_, ⟨d, hd, rfl⟩, hm⟩
    rw [Derived.matcher_pinned_front, atStart_mul_matches] at hm
    exact ⟨hm.1, d, hd, hm.2⟩
  · rintro ⟨hi, d, hd, hm⟩
    refine ⟨_, ⟨d, hd, rfl⟩, ?_⟩
    rw [Derived.matcher_pinned_front, atStart_mul_matches]
    exact ⟨hi, hm⟩

/-- A tree with an anchor at the back matches what it matches without it, at the end. -/
theorem spans_pinned_back : (t.pinned (.only .back .anchor)).spans = t.spans * atEnd := by
  ext s i j
  simp only [mul_atEnd_matches, spans_matches, derives_pinned]
  constructor
  · rintro ⟨_, ⟨d, hd, rfl⟩, hm⟩
    rw [Derived.matcher_pinned_back, mul_atEnd_matches] at hm
    exact ⟨hm.1, d, hd, hm.2⟩
  · rintro ⟨hj, d, hd, hm⟩
    refine ⟨_, ⟨d, hd, rfl⟩, ?_⟩
    rw [Derived.matcher_pinned_back, mul_atEnd_matches]
    exact ⟨hj, hm⟩

/-- Pins that no branch is held by change nothing. -/
theorem spans_pinned {pins : Pins} (h : ∀ side, (pins.on side).inAll = false) :
    (t.pinned pins).spans = t.spans := by
  apply spans_congr
  intro d
  have hself : ∀ e : Derived, e.pinned pins = e := fun e => by
    ext side
    · rfl
    · simp [h side]
  simp only [derives_pinned, hself]
  constructor
  · rintro ⟨e, he, rfl⟩
    exact he
  · intro hd
    exact ⟨d, hd, rfl⟩

/-! ## Repetition -/

/-- So many derivations one after the other, where none is pinned. No pin is lost between them. -/
theorem spans_pow_matches (h : ∀ d side, t.Derives .accepted d → d.on side = false) {n : Nat} :
    (t.spans ^ n).Matches s i j ↔ ∃ ds : List Derived, ds.length = n ∧
      (∀ d ∈ ds, t.Derives .accepted d) ∧ (Derived.join ds).matcher.Matches s i j := by
  induction n generalizing i with
  | zero =>
    simp only [pow_zero, List.length_eq_zero_iff]
    constructor
    · intro hm
      exact ⟨[], rfl, by simp, by rwa [Derived.matcher_join_nil]⟩
    · rintro ⟨_, rfl, -, hm⟩
      rwa [Derived.matcher_join_nil] at hm
  | succ n ih =>
    have hjoin : ∀ d ds, t.Derives .accepted d → (∀ e ∈ ds, t.Derives .accepted e) →
        (Derived.join (d :: ds)).matcher = d.matcher * (Derived.join ds).matcher := by
      intro d ds hd hds
      refine Derived.matcher_join_cons (h d .back hd) ?_
      cases ds with
      | nil => rfl
      | cons e ds => exact h e .front (hds e List.mem_cons_self)
    rw [pow_succ_matches]
    constructor
    · rintro ⟨k, ⟨d, hd, hm₁⟩, hm₂⟩
      obtain ⟨ds, rfl, hds, hm₂⟩ := ih.mp hm₂
      refine ⟨d :: ds, rfl, List.forall_mem_cons.mpr ⟨hd, hds⟩, ?_⟩
      rw [hjoin d ds hd hds]
      exact ⟨k, hm₁, hm₂⟩
    · rintro ⟨ds, hn, hds, hm⟩
      cases ds with
      | nil => cases hn
      | cons d ds =>
        rw [List.forall_mem_cons] at hds
        rw [hjoin d ds hds.1 hds.2] at hm
        obtain ⟨k, hm₁, hm₂⟩ := hm
        exact ⟨k, ⟨d, hds.1, hm₁⟩, ih.mpr ⟨ds, by simpa using hn, hds.2, hm₂⟩⟩

end Tree

namespace Pattern

open Exemplar.Tree

variable {M : Meaning} {atom : Tree} {occurs limited : Extent} {d : Derived}

/-- An atom stands in a node for itself, or as its only part if it has to be kept apart. -/
theorem derivesOnce_kept {e : Derived} : (if atom.occurs = .once ∧ atom.pins = .free then atom
    else .ofParts [atom]).DerivesOnce M e ↔ atom.Derives M e := by
  split
  next hplain =>
    have hown : ∀ e : Derived, e.pinned atom.ownPins = e := fun e => by
      ext side
      · rfl
      · simp [ownPins, hplain.2, Pin.diff, Pin.free]
    simp only [derives_iff_of_once hplain.1, hown, exists_eq_right']
  next =>
    rw [ofParts, derivesOnce_sequence]
    constructor
    · rintro ⟨_, h, rfl⟩
      cases h with
      | cons hd hnil =>
        cases hnil
        rwa [Derived.join_singleton]
    · intro he
      exact ⟨[e], .cons he .nil, (Derived.join_singleton e).symm⟩

theorem pins_repeated : (repeated atom occurs).pins =
    if occurs.least = 0 then atom.pins.loosen else atom.pins := by
  unfold repeated withOccurs
  rw [pins_withMark]
  split <;> rfl

/-- An atom with a quantifier derives so many derivations of the atom, one after the other. What is
pinned in all branches is pinned by the first occurrence, if there has to be one. -/
theorem derives_repeated : (repeated atom occurs).Derives M d ↔ ∃ ds : List Derived,
    occurs.Admits ds.length ∧ (∀ e ∈ ds, atom.Derives M e) ∧ d = .join ds := by
  have hpinned : ∀ ds : List Derived, occurs.Admits ds.length → (∀ e ∈ ds, atom.Derives M e) →
      (Derived.join ds).pinned (repeated atom occurs).pins = .join ds := by
    intro ds hn hds
    ext side
    · rfl
    · rw [Derived.on_pinned, pins_repeated]
      split
      next => simp [Pin.loosen]
      next hleast =>
        cases hall : (atom.pins.on side).inAll with
        | false => rfl
        | true =>
          rw [Derived.join_on]
          cases hout : side.outermost ds with
          | none =>
            rw [Side.outermost_eq_none.mp hout] at hn
            exact absurd (Nat.le_zero.mp hn.1) hleast
          | some e => exact ((hds e (Side.mem_of_outermost hout)).on_of_inAll hall).symm
  have hiff : (repeated atom occurs).Derives M d ↔ ∃ ds : List Derived,
      occurs.Admits ds.length ∧ (∀ e ∈ ds, atom.Derives M e) ∧
        d = (Derived.join ds).pinned (repeated atom occurs).pins := by
    rw [pins, repeated, withOccurs, derives_withMark, mark_withMark]
    simp only [Mark.Repeats, derivesOnce_kept]
  rw [hiff]
  constructor
  · rintro ⟨ds, hn, hds, rfl⟩
    exact ⟨ds, hn, hds, hpinned ds hn hds⟩
  · rintro ⟨ds, hn, hds, rfl⟩
    exact ⟨ds, hn, hds, (hpinned ds hn hds).symm⟩

/-- A repeated atom matches what so many derivations of it match, one after the other. -/
theorem spans_repeated_matches : (repeated atom occurs).spans.Matches s i j ↔
    ∃ ds : List Derived, occurs.Admits ds.length ∧ (∀ e ∈ ds, atom.Derives .accepted e) ∧
      (Derived.join ds).matcher.Matches s i j := by
  simp only [spans_matches, derives_repeated]
  constructor
  · rintro ⟨_, ⟨ds, hn, hds, rfl⟩, hm⟩
    exact ⟨ds, hn, hds, hm⟩
  · rintro ⟨ds, hn, hds, hm⟩
    exact ⟨_, ⟨ds, hn, hds, rfl⟩, hm⟩

/-- An atom that occurs once at most is repeated as a matcher. -/
theorem spans_repeated_few (h : ∀ n, occurs.Admits n → n ≤ 1) :
    (repeated atom occurs).spans = times {n | occurs.Admits n} atom.spans := by
  ext s i j
  rw [spans_repeated_matches, times_matches]
  constructor
  · rintro ⟨ds, hn, hds, hm⟩
    refine ⟨ds.length, hn, ?_⟩
    have hle := h _ hn
    match ds with
    | [] => rwa [Derived.matcher_join_nil] at hm
    | [d] =>
      rw [Derived.join_singleton] at hm
      rw [List.length_singleton, pow_one]
      exact ⟨d, hds d List.mem_cons_self, hm⟩
    | _ :: _ :: _ => simp at hle
  · rintro ⟨n, hn, hm⟩
    rcases Nat.le_one_iff_eq_zero_or_eq_one.mp (h n hn) with rfl | rfl
    · exact ⟨[], hn, by simp, by rwa [Derived.matcher_join_nil]⟩
    · rw [pow_one] at hm
      obtain ⟨d, hd, hm⟩ := hm
      exact ⟨[d], hn, by simpa using hd, by rwa [Derived.join_singleton]⟩

/-- So is an atom none of whose derivations is pinned. -/
theorem spans_repeated_free (h : ∀ d side, atom.Derives .accepted d → d.on side = false) :
    (repeated atom occurs).spans = times {n | occurs.Admits n} atom.spans := by
  ext s i j
  simp only [spans_repeated_matches, times_matches, spans_pow_matches h, Set.mem_ofPred_eq]
  constructor
  · rintro ⟨ds, hn, hds, hm⟩
    exact ⟨_, hn, ds, rfl, hds, hm⟩
  · rintro ⟨_, hn, ds, rfl, hds, hm⟩
    exact ⟨ds, hn, hds, hm⟩

/-- What is pinned in all branches stands at that end of the string only. -/
theorem matches_of_pow_pinned {side : Side} (hall : (atom.pins.on side).inAll = true) {n : Nat}
    (hn : n ≠ 0) (hm : (atom.spans ^ n).Matches s i j) : atom.spans.Matches s i j := by
  cases side with
  | front =>
    refine matches_of_pow_start (fun h => ?_) hn hm
    obtain ⟨d, hd, h⟩ := h
    have hpinned : d.on .front = true := hd.on_of_inAll hall
    exact h.2.1 hpinned
  | back =>
    refine matches_of_pow_end (fun h => ?_) hn hm
    obtain ⟨d, hd, h⟩ := h
    have hpinned : d.on .back = true := hd.on_of_inAll hall
    exact h.2.2 hpinned

/-- What is pinned is repeated in one place, so one occurrence stands for all of them. More than one
occurrence would have to stand there. -/
theorem times_eq_of_pinned {side : Side} (hall : (atom.pins.on side).inAll = true)
    (hzero : limited.Admits 0 ↔ occurs.Admits 0) (hone : limited.Admits 1)
    (hone' : occurs.Admits 1) (hle : ∀ n, limited.Admits n → n ≤ 1) :
    times {n | limited.Admits n} atom.spans = times {n | occurs.Admits n} atom.spans := by
  ext s i j
  constructor
  · rintro ⟨n, hn, hm⟩
    rcases Nat.le_one_iff_eq_zero_or_eq_one.mp (hle n hn) with rfl | rfl
    · exact ⟨0, hzero.mp hn, hm⟩
    · exact ⟨1, hone', hm⟩
  · rintro ⟨n, hn, hm⟩
    rcases Nat.eq_zero_or_pos n with rfl | hpos
    · exact ⟨0, hzero.mpr hn, hm⟩
    · exact ⟨1, hone, by rw [pow_one]; exact matches_of_pow_pinned hall (by omega) hm⟩

/-- No derivation is pinned where no branch is. -/
theorem Built.on_eq_false {t : Tree} (h : Built t) (side : Side)
    (hs : (t.pins.on side).inSome = false) (hd : t.Derives M d) : d.on side = false := by
  refine hd.on_eq_false h.consistent.coherent hs ?_
  exact eq_false_of_imp ((every_iff.mp h.consistent).1.inSome_of_inAll side) hs

/-- An atom with a quantifier stands where so many occurrences of it do, also when the quantifier
has been reduced. -/
theorem Built.spans_repeated (h : Built atom) (hlimited : Limited atom.pins occurs limited) :
    (Pattern.repeated atom limited).spans = times {n | occurs.Admits n} atom.spans := by
  cases hlimited with
  | few hmost =>
    apply spans_repeated_few
    intro n hn
    rcases hn.2 with h | h
    · rw [h] at hmost
      exact absurd hmost (by decide)
    · exact h.trans hmost
  | free _ hsome => exact spans_repeated_free fun d side hd => h.on_eq_false side (hsome side) hd
  | optional side _ hall hmost hleast =>
    rw [spans_repeated_few fun n => Extent.admits_optional.mp]
    refine times_eq_of_pinned hall ?_ (by simp) ⟨by omega, .inr hmost.le⟩
      fun n => Extent.admits_optional.mp
    simp [Extent.Admits, Extent.optional, hleast]
  | once side _ hall hmost hleast =>
    rw [spans_repeated_few fun n hn => (Extent.admits_once.mp hn).le]
    refine times_eq_of_pinned hall ?_ (by simp) ⟨by omega, .inr hmost.le⟩
      fun n hn => (Extent.admits_once.mp hn).le
    simp [Extent.Admits, Extent.once, hleast]

end Pattern

end Exemplar
