import Exemplar.Proofs.Generator
import Exemplar.Proofs.Padding.Coherence

/-!
# What padding adds

Padding adds text wherever a derivation is not pinned, and nothing else. This is proved for one side
at a time, of derivations and not just of strings, since the other side is padded next: a derivation
from the padded tree is pinned at the other side as the one is that it comes from.

There is one exception. Where a node is missing that is pinned at its back only through its
children, the text that stands for it is not pinned. But then it is nothing but text, to which text
may be added at either side.

## Main definitions

* `Pads side S P P'`: the derivations `P'` are those of `P` with text added at the side

## Main results

* `Tree.pads_of_pad`: padding a tree adds text to its derivations
* `Tree.mem_language_padBoth`: padding at both sides adds just the text that is left open
-/

namespace Exemplar

variable {side : Side} {S : Set Char} {P P' : Derived → Prop}

/-- The derivations in `P'` are those in `P` with text of characters in `S` added at the side,
except where they are pinned there. -/
structure Pads (side : Side) (S : Set Char) (P P' : Derived → Prop) : Prop where
  sound : ∀ d', P' d' → ∃ u d, P d ∧ (∀ c ∈ u, c ∈ S) ∧ d'.text = side.attach u d.text ∧
    (d.on side = true → u = []) ∧ (d'.on side.other = true → d.on side.other = true) ∧
    (d.on side.other = true → d'.on side.other = true ∨ d.text = [] ∧ d.on side = false)
  complete : ∀ d u, P d → (∀ c ∈ u, c ∈ S) → (d.on side = true → u = []) →
    ∃ d', P' d' ∧ d'.text = side.attach u d.text ∧
      (d'.on side.other = true → d.on side.other = true)

namespace Pads

/-- Where all derivations are pinned, no text is added. -/
theorem kept (h : ∀ d, P d → d.on side = true) : Pads side S P P := by
  refine ⟨fun d hd => ⟨[], d, hd, by simp, by simp, fun _ => rfl, id, .inl⟩, fun d u hd _ hu => ?_⟩
  rw [hu (h d hd)]
  exact ⟨d, hd, by simp, id⟩

theorem congr {Q Q' : Derived → Prop} (hP : ∀ d, P d ↔ Q d) (hP' : ∀ d, P' d ↔ Q' d)
    (h : Pads side S P P') : Pads side S Q Q' := by
  obtain rfl : P = Q := funext fun d => propext (hP d)
  obtain rfl : P' = Q' := funext fun d => propext (hP' d)
  exact h

/-- Pins set on a node make no difference, as long as they do not pin it at the side. -/
theorem pinned {own : Pins} (hown : (own.on side).inAll = false) (h : Pads side S P P') :
    Pads side S (fun d => ∃ e, P e ∧ d = e.pinned own) (fun d => ∃ e, P' e ∧ d = e.pinned own) := by
  constructor
  · rintro _ ⟨e', he', rfl⟩
    obtain ⟨u, e, he, hu, htext, hside, hback, hforth⟩ := h.sound e' he'
    refine ⟨u, e.pinned own, ⟨e, he, rfl⟩, hu, htext, ?_⟩
    simp only [Derived.on_pinned, Derived.text_pinned, hown, Bool.false_or, Bool.or_eq_true]
    refine ⟨hside, Or.imp_right hback, ?_⟩
    rintro (h | h)
    · exact .inl (.inl h)
    · exact (hforth h).imp .inr id
  · rintro _ u ⟨e, he, rfl⟩ hu hside
    rw [Derived.on_pinned, hown, Bool.false_or] at hside
    obtain ⟨e', he', htext, hback⟩ := h.complete e u he hu hside
    refine ⟨e'.pinned own, ⟨e', he', rfl⟩, htext, ?_⟩
    simp only [Derived.on_pinned, Bool.or_eq_true]
    exact Or.imp_right hback

end Pads

namespace Tree

variable {M : Meaning} {t r : Tree} {d : Derived}

/-- Text that padding adds is made of the characters that `.` stands for, one occurrence for each,
and pinned nowhere. -/
theorem derives_padding :
    padding.Derives M d ↔ (∀ c ∈ d.text, c ∈ M .dot) ∧ ∀ side, d.on side = false := by
  have hmark : padding.mark = { occurs := .any } := rfl
  have honce : ∀ e, padding.DerivesOnce M e ↔ ∃ c ∈ M .dot, e = .char c := fun e =>
    derivesOnce_leaf
  constructor
  · intro hd
    constructor
    · intro c hc
      obtain ⟨ds, -, hds, rfl⟩ := hd
      obtain ⟨w, hw, hc⟩ := List.mem_flatten.mp hc
      obtain ⟨e, he, rfl⟩ := List.mem_map.mp hw
      obtain ⟨c', hc', rfl⟩ := (honce e).mp (hds e he)
      rwa [List.mem_singleton.mp hc]
    · intro side
      exact hd.on_eq_false (every_coherent_leaf _ _) (by cases side <;> rfl) (by cases side <;> rfl)
  · rintro ⟨hmem, hon⟩
    refine ⟨d.text.map .char, ?_, ?_, ?_⟩
    · rw [hmark]
      exact Extent.admits_any
    · intro e he
      obtain ⟨c, hc, rfl⟩ := List.mem_map.mp he
      exact (honce _).mpr ⟨c, hmem c hc, rfl⟩
    · ext side
      · simp [Function.comp_def, ← List.flatMap_def]
      · rw [hon, Derived.on_pinned, Derived.join_on, Side.outermost_map, hmark]
        cases side <;> cases Side.outermost _ d.text <;> rfl

section Join

variable (side : Side) (d : Derived) (ds : List Derived)

theorem text_join_place :
    (Derived.join (side.place d ds)).text = side.attach d.text (Derived.join ds).text := by
  rw [Derived.text_join, Derived.text_join, Side.map_place, Side.flatten_place]

theorem on_join_place : (Derived.join (side.place d ds)).on side = d.on side := by
  rw [Derived.join_on, Side.outermost_place]
  rfl

theorem on_other_join_place : (Derived.join (side.place d ds)).on side.other =
    ((side.other.outermost ds).or (some d)).any (·.on side.other) := by
  rw [Derived.join_on, Side.outermost_other_place]

end Join

/-- Padding the part at the side pads the sequence. If the part is the only one, it is at the other
side as well. -/
theorem pads_parts {c c' : Tree} {rest : List Tree}
    (h : Pads side (M .dot) (c.Derives M) (c'.Derives M)) :
    Pads side (M .dot) ((ofParts (side.place c rest)).Derives M)
      ((ofParts (side.place c' rest)).Derives M) := by
  constructor
  · intro e' he'
    obtain ⟨es', hes', rfl⟩ := derives_ofParts.mp he'
    obtain ⟨d', ds, rfl, hd', hds⟩ := Side.forall₂_place.mp hes'
    obtain ⟨u, d, hd, hu, htext, hside, hback, hforth⟩ := h.sound d' hd'
    have hjoin : (Derived.join (side.place d' ds)).text =
        side.attach u (Derived.join (side.place d ds)).text := by
      rw [text_join_place, text_join_place, Side.attach_attach, htext]
    refine ⟨u, .join (side.place d ds),
      derives_ofParts.mpr ⟨_, Side.forall₂_place.mpr ⟨d, ds, rfl, hd, hds⟩, rfl⟩, hu, hjoin, ?_⟩
    rw [on_join_place, on_other_join_place, on_other_join_place]
    refine ⟨hside, ?_⟩
    cases hout : side.other.outermost ds with
    | some x => exact ⟨id, .inl⟩
    | none =>
      have hnil : ds = [] := by
        cases ds with
        | nil => rfl
        | cons a ds => cases side <;> simp [Side.other, Side.outermost] at hout
      refine ⟨hback, fun h => (hforth h).imp id fun h => ⟨?_, h.2⟩⟩
      rw [text_join_place, h.1, hnil]
      simp
  · intro e u he hu hside
    obtain ⟨es, hes, rfl⟩ := derives_ofParts.mp he
    obtain ⟨d, ds, rfl, hd, hds⟩ := Side.forall₂_place.mp hes
    rw [on_join_place] at hside
    obtain ⟨d', hd', htext, hback⟩ := h.complete d u hd hu hside
    refine ⟨.join (side.place d' ds),
      derives_ofParts.mpr ⟨_, Side.forall₂_place.mpr ⟨d', ds, rfl, hd', hds⟩, rfl⟩, ?_, ?_⟩
    · rw [text_join_place, text_join_place, Side.attach_attach, htext]
    · rw [on_other_join_place, on_other_join_place]
      cases side.other.outermost ds with
      | some x => exact id
      | none => exact hback

/-- Padding each member pads the choice. -/
theorem pads_members {members members' : List Tree}
    (h : List.Forall₂ (fun t t' => Pads side (M .dot) (t.Derives M) (t'.Derives M))
      members members') :
    Pads side (M .dot) ((ofMembers members).Derives M) ((ofMembers members').Derives M) := by
  constructor
  · intro d' hd'
    obtain ⟨t', ht', hd'⟩ := derives_ofMembers.mp hd'
    obtain ⟨t, ht, hpads⟩ := exists_left_of_mem h ht'
    obtain ⟨u, d, hd, hrest⟩ := hpads.sound d' hd'
    exact ⟨u, d, derives_ofMembers.mpr ⟨t, ht, hd⟩, hrest⟩
  · intro d u hd hu hside
    obtain ⟨t, ht, hd⟩ := derives_ofMembers.mp hd
    obtain ⟨t', ht', hpads⟩ := exists_right_of_mem h ht
    obtain ⟨d', hd', hrest⟩ := hpads.complete d u hd hu hside
    exact ⟨d', derives_ofMembers.mpr ⟨t', ht', hd'⟩, hrest⟩

/-- Text is added to a tree none of whose derivations is pinned. A derivation of the wrapped tree is
one of the padding beside one of the tree. -/
theorem pads_wrap (h : ∀ d, t.Derives M d → d.on side = false) :
    Pads side (M .dot) (t.Derives M) ((t.wrap side).Derives M) := by
  have hother : (((Pins.only side .anchor).on side.other)).inAll = false := by
    rw [Pins.on_only_other]
    rfl
  constructor
  · intro e' he'
    rw [wrap_eq] at he'
    obtain ⟨e, he, rfl⟩ := derives_pinned.mp he'
    obtain ⟨es, hes, rfl⟩ := derives_ofParts.mp he
    obtain ⟨p, ds, rfl, hp, hds⟩ := Side.forall₂_place.mp hes
    obtain ⟨d, hd, rfl⟩ : ∃ d, t.Derives M d ∧ ds = [d] := by
      cases hds with
      | cons hd hnil =>
        cases hnil
        exact ⟨_, hd, rfl⟩
    obtain ⟨hmem, -⟩ := derives_padding.mp hp
    refine ⟨p.text, d, hd, hmem, ?_, ?_⟩
    · rw [Derived.text_pinned, text_join_place, Derived.join_singleton]
    · rw [h d hd, Derived.on_pinned, hother, Bool.false_or, on_other_join_place,
        Side.outermost_singleton]
      exact ⟨nofun, id, .inl⟩
  · intro d u hd hu hside
    have hp : padding.Derives M ⟨u, false, false⟩ :=
      derives_padding.mpr ⟨hu, fun side => by cases side <;> rfl⟩
    refine ⟨(Derived.join (side.place ⟨u, false, false⟩ [d])).pinned (.only side .anchor),
      ?_, ?_, ?_⟩
    · rw [wrap_eq]
      exact derives_pinned.mpr ⟨_, derives_ofParts.mpr ⟨_, Side.forall₂_place.mpr
        ⟨_, [d], rfl, hp, .cons hd .nil⟩, rfl⟩, rfl⟩
    · rw [Derived.text_pinned, text_join_place, Derived.join_singleton]
    · rw [Derived.on_pinned, hother, Bool.false_or, on_other_join_place, Side.outermost_singleton]
      exact id

/-! ### Nodes that are taken apart -/

/-- A single occurrence of a node derives what the node derives once. -/
theorem derives_single :
    t.single.Derives M d ↔ ∃ e, t.DerivesOnce M e ∧ d = e.pinned t.ownPins := by
  cases t with
  | leaf cls m =>
    have honce (e : Derived) : (leaf cls {}).Derives M e ↔ (leaf cls m).DerivesOnce M e := by
      rw [derives_iff_derivesOnce rfl rfl, derivesOnce_leaf, derivesOnce_leaf]
    simp only [← honce]
    exact derives_pinned
  | sequence parts m =>
    have honce (e : Derived) :
        (ofParts parts).Derives M e ↔ (sequence parts m).DerivesOnce M e := by
      rw [derives_ofParts, derivesOnce_sequence]
    simp only [← honce]
    exact derives_pinned
  | choice members m =>
    have honce (e : Derived) :
        (ofMembers members).Derives M e ↔ (choice members m).DerivesOnce M e := by
      rw [derives_ofMembers, derivesOnce_choice]
    simp only [← honce]
    exact derives_pinned

theorem derivesOnce_of_or {u : Tree} (hu : u = t ∨ u = t.single) {e : Derived} :
    u.DerivesOnce M e ↔ t.DerivesOnce M e := by
  rcases hu with rfl | rfl
  · rfl
  · cases t <;> rw [single, Tree.pinned, derivesOnce_withMark] <;>
      simp only [DerivesOnce, ofParts, ofMembers]

theorem derives_rebuilt {around : Tree} :
    (t.rebuilt around).Derives M d ↔ ∃ e, around.Derives M e ∧ d = e.pinned t.ownPins := by
  rw [← derives_pinned, rebuilt, derives_withMark]
  rfl

/-- A node that is rebuilt around padded children is padded. -/
theorem pads_rebuilt {u around around' : Tree} (hu : u.occurs = .once)
    (hall : (u.pins.on side).inAll = false)
    (hchildren : ∀ e, u.DerivesOnce M e ↔ around.Derives M e)
    (h : Pads side (M .dot) (around.Derives M) (around'.Derives M)) :
    Pads side (M .dot) (u.Derives M) ((u.rebuilt around').Derives M) := by
  have hown : (u.ownPins.on side).inAll = false := by
    rw [ownPins_on, Pin.diff, hall, Bool.false_and]
  refine (h.pinned hown).congr (fun d => ?_) fun d => derives_rebuilt.symm
  rw [derives_iff_of_once hu]
  simp only [hchildren]

/-- A single occurrence is held where the node itself is pinned in all branches. -/
theorem Derives.on_of_own {d : Derived} {s : Side} (h : t.single.Derives M d)
    (hs : (t.ownPins.on s).inAll = true) : d.on s = true := by
  obtain ⟨e, -, rfl⟩ := derives_single.mp h
  rw [Derived.on_pinned, hs, Bool.true_or]

/-- So is a node that is missing. -/
theorem on_missing_of_own {s : Side} (hs : (t.ownPins.on s).inAll = true) :
    ((Derived.join []).pinned t.pins).on s = true := by
  rw [ownPins_on] at hs
  rw [Derived.on_pinned, (Bool.and_eq_true_iff.mp hs).1, Bool.true_or]

/-- A node that may be missing is padded where it is present, and is nothing but text where it is
not. -/
theorem pads_presentOrAbsent {present : Tree} (ht : t.occurs = .optional)
    (hall : (t.pins.on side).inAll = false)
    (h : Pads side (M .dot) (t.single.Derives M) (present.Derives M)) :
    Pads side (M .dot) (t.Derives M) ((t.presentOrAbsent side present).Derives M) := by
  have hderives : ∀ d, t.Derives M d ↔
      d = (Derived.join []).pinned t.pins ∨ t.single.Derives M d := fun d => by
    rw [derives_iff_of_optional ht, derives_single]
  rw [presentOrAbsent, absent]
  generalize htrailing : ({ back := t.ownPins.back } : Pins) = trailing
  have hown : ∀ s, (trailing.on s).inAll = true → (t.ownPins.on s).inAll = true := by
    subst htrailing
    intro s h
    cases s with
    | front => cases h
    | back => exact h
  have habsent : ∀ p : Derived, (∀ s, p.on s = false) →
      (p.pinned ((Pins.only side .anchor).union trailing)).on side.other = true →
        (trailing.on side.other).inAll = true := by
    intro p hp
    rw [Derived.on_pinned, hp, Bool.or_false, Pins.on_union, Pins.on_only_other]
    exact id
  have hside : ((Derived.join []).pinned t.pins).on side = false := by
    rw [Derived.on_pinned, hall, Derived.join_nil_on]
    rfl
  -- A derivation is one of the padded occurrence, or text in place of a missing one.
  constructor
  · intro d' hd'
    obtain ⟨u, hu, hd'⟩ := derives_ofMembers.mp hd'
    rcases List.mem_pair.mp hu with rfl | rfl
    · obtain ⟨e', he', rfl⟩ := derives_pinned.mp hd'
      obtain ⟨u, d, hd, hu, htext, hside, hback, hforth⟩ := h.sound e' he'
      refine ⟨u, d, (hderives d).mpr (.inr hd), hu, htext, hside, ?_, ?_⟩
      · rw [Derived.on_pinned, Bool.or_eq_true]
        exact fun h => h.elim (fun hs => hd.on_of_own (hown _ hs)) hback
      · intro hd
        rw [Derived.on_pinned, Bool.or_eq_true]
        exact (hforth hd).imp .inr id
    · obtain ⟨p, hp, rfl⟩ := derives_pinned.mp hd'
      obtain ⟨hmem, hon⟩ := derives_padding.mp hp
      refine ⟨p.text, _, (hderives _).mpr (.inl rfl), hmem, ?_, ?_, ?_, fun _ => .inr ⟨rfl, hside⟩⟩
      · simp
      · rw [hside]
        exact fun h => absurd h Bool.false_ne_true
      · exact fun h => on_missing_of_own (hown _ (habsent p hon h))
  · intro d u hd hu hpin
    rcases (hderives d).mp hd with rfl | hd
    · have hon : ∀ s, (⟨u, false, false⟩ : Derived).on s = false := fun s => by cases s <;> rfl
      refine ⟨_, derives_ofMembers.mpr ⟨_, List.mem_pair.mpr (.inr rfl), derives_pinned.mpr
        ⟨_, derives_padding.mpr ⟨hu, hon⟩, rfl⟩⟩, by simp, ?_⟩
      exact fun h => on_missing_of_own (hown _ (habsent _ hon h))
    · obtain ⟨e', he', htext, hback⟩ := h.complete d u hd hu hpin
      refine ⟨e'.pinned trailing, derives_ofMembers.mpr ⟨_, List.mem_pair.mpr (.inl rfl),
        derives_pinned.mpr ⟨e', he', rfl⟩⟩, htext, ?_⟩
      rw [Derived.on_pinned, Bool.or_eq_true]
      exact fun h => h.elim (fun hs => hd.on_of_own (hown _ hs)) hback

/-- A single occurrence of a coherent node is coherent. -/
theorem Every.coherent_single (h : t.Every IsCoherent) : t.single.Every IsCoherent := by
  obtain ⟨ht, hs⟩ := every_iff.mp h
  refine .node _ ⟨?_, ?_⟩ (by simpa using hs)
  · intro s hsome
    rw [derivedPins_single] at hsome
    rw [pins_single_on, Pin.union, hsome, Bool.true_or]
  · intro s hsome
    rw [derivedPins_single] at hsome
    have hout : t.single.outermost s = t.outermost s := by cases t <;> rfl
    rw [hout]
    exact ht.inAll_of_derived s hsome

/-- What a step of padding adds to a coherent node, if it is known of the children. Only a node that
may be missing is split up, so its single occurrence is not. -/
theorem PadStep.pads {inside : Tree → Tree → Prop} (hp : PadStep side inside t r)
    (h : t.Every IsCoherent) (hin : ∀ u v, (u = t ∨ u = t.single) → u.occurs = .once →
      (u.pins.on side).inAll = false → inside u v →
        Pads side (M .dot) (u.Derives M) (v.Derives M)) :
    Pads side (M .dot) (t.Derives M) (r.Derives M) := by
  cases hp with
  | kept hall => exact .kept fun d hd => hd.on_of_inAll hall
  | wrapped hall hsome => exact pads_wrap fun d hd => hd.on_eq_false h hsome hall
  | opened hall _ honce hin' => exact hin _ _ (.inl rfl) honce hall hin'
  | optional hall _ hoccurs hsingle =>
    refine pads_presentOrAbsent hoccurs hall ?_
    cases hsingle with
    | kept hall => exact .kept fun d hd => hd.on_of_inAll hall
    | wrapped hall hsome => exact pads_wrap fun d hd => hd.on_eq_false h.coherent_single hsome hall
    | opened hall' _ honce hin' => exact hin _ _ (.inr rfl) honce hall' hin'
    | optional _ _ hoccurs _ =>
      rw [occurs_single] at hoccurs
      cases hoccurs

/-- Padding a coherent tree adds text to its derivations where they are not pinned. The invariant of
the induction is coherence: without it a pinned derivation could be found in an unpinned tree. -/
theorem pads_of_pad (h : t.Every IsCoherent) (hp : t.pad side = .ok r) :
    Pads side (M .dot) (t.Derives M) (r.Derives M) := by
  induction t generalizing r with
  | leaf cls m => exact (padStep_of_pad hp).pads h fun _ _ _ _ _ hin => nomatch hin
  | sequence parts m ih =>
    have hs : ∀ c ∈ parts, c.Every IsCoherent := (every_iff.mp h).2
    apply (padStep_of_pad hp).pads h
    intro u v hu honce hall hin
    obtain ⟨parts', ⟨c, c', rest, hc, rfl, rfl⟩, rfl⟩ := hin
    have hmem : c ∈ side.place c rest := Side.mem_place.mpr (.inl rfl)
    refine pads_rebuilt honce hall (fun e => ?_) (pads_parts (ih c hmem (hs c hmem) hc))
    rw [derivesOnce_of_or hu, derivesOnce_sequence, derives_ofParts]
  | choice members m ih =>
    have hs : ∀ c ∈ members, c.Every IsCoherent := (every_iff.mp h).2
    apply (padStep_of_pad hp).pads h
    intro u v hu honce hall hin
    obtain ⟨members', hmembers, rfl⟩ := hin
    refine pads_rebuilt honce hall (fun e => ?_)
      (pads_members (forall₂_imp_of_mem (fun c hc c' => ih c hc (hs c hc)) hmembers))
    rw [derivesOnce_of_or hu, derivesOnce_choice, derives_ofMembers]

/-- Padding at both sides adds just the text that the derivations leave open. The second side is
padded on the result of the first one, which is still coherent. -/
theorem mem_language_padBoth (h : t.Every IsConsistent) (hp : t.padBoth = .ok r) {w : List Char} :
    w ∈ r.language M ↔ ∃ u d z, t.Derives M d ∧ w = u ++ d.text ++ z ∧
      (∀ c ∈ u, c ∈ M .dot) ∧ (∀ c ∈ z, c ∈ M .dot) ∧
      (d.front = true → u = []) ∧ (d.back = true → z = []) := by
  simp only [padBoth, bind_eq_ok] at hp
  obtain ⟨t₁, hfront, hback⟩ := hp
  have hpads₁ : Pads .front (M .dot) (t.Derives M) (t₁.Derives M) := pads_of_pad h.coherent hfront
  have hpads₂ : Pads .back (M .dot) (t₁.Derives M) (r.Derives M) :=
    pads_of_pad (padded_of_pad h hfront).coherent hback
  rw [mem_language]
  constructor
  · rintro ⟨d₂, hd₂, rfl⟩
    obtain ⟨z, d₁, hd₁, hz, htext₂, hpin₁, -, -⟩ := hpads₂.sound d₂ hd₂
    obtain ⟨u, d, hd, hu, htext₁, hpin, -, hforth⟩ := hpads₁.sound d₁ hd₁
    have htext : d₂.text = u ++ d.text ++ z := by rw [htext₂, htext₁]; rfl
    by_cases hexact : d.back = true → z = []
    · exact ⟨u, d, z, hd, htext, hu, hz, hpin, hexact⟩
    · -- The text at the back stands for a missing node, so all of it can stand at the front.
      rw [Classical.not_imp] at hexact
      obtain ⟨hnil, hopen⟩ := (hforth hexact.1).resolve_left fun h => hexact.2 (hpin₁ h)
      refine ⟨u ++ z, d, [], hd, ?_, ?_, by simp, ?_, fun _ => rfl⟩
      · rw [htext, hnil, List.append_nil, List.append_nil, List.append_nil]
      · intro c hc
        exact (List.mem_append.mp hc).elim (hu c) (hz c)
      · intro h
        rw [show d.front = false from hopen] at h
        cases h
  · rintro ⟨u, d, z, hd, rfl, hu, hz, hfront, hback⟩
    obtain ⟨d₁, hd₁, htext₁, hback₁⟩ := hpads₁.complete d u hd hu hfront
    obtain ⟨d₂, hd₂, htext₂, -⟩ := hpads₂.complete d₁ z hd₁ hz fun h => hback (hback₁ h)
    exact ⟨d₂, hd₂, by rw [htext₂, htext₁]; rfl⟩

/-- The tree of a pattern that need not match the whole string describes, once it is completed, what
the pattern derives with printable text around it, but none where the derivation is pinned. -/
theorem mem_language_completed {options : Options} {pattern : List Char}
    (hwhole : options.whole = false) (ht : Pattern.parse options pattern = .ok t)
    (hr : t.completed options = .ok r) (w : List Char) :
    w ∈ r.language (.drawn options.alphabet) ↔
      ∃ u d z, t.Derives (.drawn options.alphabet) d ∧ w = u ++ d.text ++ z ∧
        (∀ c ∈ u, c ∈ options.alphabet.printable ∧ ¬ c ∈ CharSet.lineTerminators) ∧
        (∀ c ∈ z, c ∈ options.alphabet.printable ∧ ¬ c ∈ CharSet.lineTerminators) ∧
        (d.front = true → u = []) ∧ (d.back = true → z = []) := by
  have hdot : ∀ c, c ∈ Meaning.drawn options.alphabet .dot ↔
      c ∈ options.alphabet.printable ∧ ¬ c ∈ CharSet.lineTerminators := fun c => CharSet.mem_diff
  rw [completed, if_neg (by simp [hwhole])] at hr
  simp only [mem_language_padBoth (Pattern.built_of_parse ht).consistent hr, hdot]

/-- The pattern `^a|b` with text behind the `a`, and on both sides of the `b`. -/
theorem mem_language_completed_branches : ∃ (options : Options) (t r : Tree),
    options.whole = false ∧ Pattern.parse options "^a|b".toList = .ok t ∧
      t.completed options = .ok r ∧ ∀ w, w ∈ r.language (.drawn options.alphabet) ↔
        ∃ u d z, t.Derives (.drawn options.alphabet) d ∧ w = u ++ d.text ++ z ∧
          (∀ c ∈ u, c ∈ options.alphabet.printable ∧ ¬ c ∈ CharSet.lineTerminators) ∧
          (∀ c ∈ z, c ∈ options.alphabet.printable ∧ ¬ c ∈ CharSet.lineTerminators) ∧
          (d.front = true → u = []) ∧ (d.back = true → z = []) := by
  obtain ⟨c, hc, -⟩ := exists_of_compile
    (show ((compile {} "^a|b").toOption.any fun _ => true) = true by decide +kernel)
  obtain ⟨ht, hr, -, -⟩ := of_compile hc
  exact ⟨{}, c.tree, c.generator.root, rfl, ht, hr, mem_language_completed rfl ht hr⟩

end Tree

end Exemplar
