import Exemplar.Proofs.Matching.Spans
import Exemplar.Proofs.Padding.Regular
import Exemplar.Proofs.Text.Pieces

/-!
# Trees that resemble each other

Trees may be put together in different ways and still describe the same strings, be pinned alike and
be written alike. Lists of parts resemble each other when this holds of their sequences, and lists
of members when it holds of their choices. Both are preserved when more is added.

Of a node whose pins can be told from what is written, the anchors may be taken as parts of their
own: `^ab$` resembles `^`, `a`, `b` and `$` one after the other.

## Main definitions

* `Tree.Resembles`: parts that resemble others
* `Tree.ResemblesMembers`: members that resemble others
* `Tree.IsShown`: a node whose pins can be told from what is written

## Main results

* `Tree.Resembles.append`: parts that are added to each other
* `Tree.resembles_anchored`: a node with its anchors as parts
-/

namespace Exemplar

theorem Extent.repeated_once (l : Language Char) : once.repeated l = l := by
  ext w
  constructor
  · rintro ⟨n, hn, hw⟩
    rw [admits_once] at hn
    rwa [hn, pow_one] at hw
  · intro hw
    exact ⟨1, admits_once.mpr rfl, by rwa [pow_one]⟩

namespace Tree

variable {M : Meaning} {t u : Tree} {e : Extent}

/-! ## Languages -/

/-- The strings of a single occurrence of a node. -/
def languageOnce (M : Meaning) : Tree → Language Char
  | leaf cls _ => singles (M cls)
  | sequence parts _ => languageOfParts M parts
  | choice members _ => languageOfMembers M members

/-- A tree describes what it describes once, repeated as often as it occurs. -/
theorem language_eq_repeated (t : Tree) :
    t.language M = t.occurs.repeated (t.languageOnce M) := by
  cases t with
  | leaf cls m =>
    ext w
    rw [mem_language_leaf, languageOnce]
    exact mem_repeated_singles.symm
  | sequence parts m => rw [language]; rfl
  | choice members m => rw [language]; rfl

@[simp] theorem languageOnce_withMark {m : Mark} :
    (t.withMark m).languageOnce M = t.languageOnce M := by
  cases t <;> rfl

theorem language_withMark {m : Mark} (h : m.occurs = t.occurs) :
    (t.withMark m).language M = t.language M := by
  rw [language_eq_repeated, language_eq_repeated, languageOnce_withMark, occurs_withMark, h]

@[simp] theorem language_pinned (t : Tree) (p : Pins) : (t.pinned p).language M = t.language M :=
  language_withMark rfl

@[simp] theorem language_withSource (t : Tree) (source : String) :
    (t.withSource source).language M = t.language M :=
  language_withMark rfl

theorem languageOfParts_append (parts rest : List Tree) :
    languageOfParts M (parts ++ rest) = languageOfParts M parts * languageOfParts M rest := by
  induction parts with
  | nil => rw [List.nil_append, languageOfParts, one_mul]
  | cons t ts ih => rw [List.cons_append, languageOfParts, languageOfParts, ih, mul_assoc]

theorem languageOfParts_singleton (t : Tree) : languageOfParts M [t] = t.language M := by
  rw [languageOfParts, languageOfParts, mul_one]

theorem languageOfMembers_append (members rest : List Tree) :
    languageOfMembers M (members ++ rest) =
      languageOfMembers M members + languageOfMembers M rest := by
  induction members with
  | nil => rw [List.nil_append, languageOfMembers, zero_add]
  | cons t ts ih => rw [List.cons_append, languageOfMembers, languageOfMembers, ih, add_assoc]

theorem languageOfMembers_singleton (t : Tree) : languageOfMembers M [t] = t.language M := by
  rw [languageOfMembers, languageOfMembers, add_zero]

theorem language_ofParts (parts : List Tree) :
    (ofParts parts).language M = languageOfParts M parts := by
  rw [language_eq_repeated]
  exact Extent.repeated_once _

theorem language_ofMembers (members : List Tree) :
    (ofMembers members).language M = languageOfMembers M members := by
  rw [language_eq_repeated]
  exact Extent.repeated_once _

/-- What is repeated describes so many strings of the atom, one after the other. -/
theorem language_repeated (atom : Tree) (e : Extent) :
    (Pattern.repeated atom e).language M = e.repeated (atom.language M) := by
  rw [Pattern.repeated, withOccurs, language_eq_repeated, languageOnce_withMark, occurs_withMark]
  split
  next hplain => rw [language_eq_repeated atom, hplain.1, Extent.repeated_once]
  next => rw [ofParts, languageOnce, languageOfParts_singleton]

/-! ## Parts -/

theorem pinsOfParts_append_front (parts rest : List Tree) : (pinsOfParts (parts ++ rest)).front =
    if parts = [] then (pinsOfParts rest).front else (pinsOfParts parts).front := by
  cases parts <;> rfl

theorem pinsOfParts_append_back (parts rest : List Tree) : (pinsOfParts (parts ++ rest)).back =
    if rest = [] then (pinsOfParts parts).back else (pinsOfParts rest).back := by
  cases rest with
  | nil => rw [List.append_nil, if_pos rfl]
  | cons t ts =>
    rw [if_neg (List.cons_ne_nil t ts)]
    simp [pinsOfParts, List.getLast?_append, List.getLast?_cons]

theorem pinsOfParts_singleton (t : Tree) : pinsOfParts [t] = t.pins := rfl

theorem isPlaced_nil : IsPlaced [] := by
  intro side t ht
  cases side <;> cases ht

theorem isPlaced_iff {parts : List Tree} : IsPlaced parts ↔
    (∀ t ∈ parts.tail, t.pins.front.plain = .free) ∧
      ∀ t ∈ parts.dropLast, t.pins.back.plain = .free := by
  constructor
  · exact fun h => ⟨h .front, h .back⟩
  · rintro ⟨hfront, hback⟩ (_ | _)
    · exact hfront
    · exact hback

/-- Parts with others behind them: where they meet, nothing is pinned. -/
theorem isPlaced_append {parts rest : List Tree} : IsPlaced (parts ++ rest) ↔
    IsPlaced parts ∧ IsPlaced rest ∧ (parts ≠ [] → rest ≠ [] →
      (pinsOfParts parts).back.plain = .free ∧ (pinsOfParts rest).front.plain = .free) := by
  rcases List.eq_nil_or_concat' parts with rfl | ⟨before, last, rfl⟩
  · simp [isPlaced_nil]
  cases rest with
  | nil => simp [isPlaced_nil]
  | cons first after =>
    have hne : before ++ [last] ≠ [] := by simp
    have hne' : first :: after ≠ [] := List.cons_ne_nil _ _
    have hback : (pinsOfParts (before ++ [last])).back = last.pins.back := by simp [pinsOfParts]
    have hfront : (pinsOfParts (first :: after)).front = first.pins.front := rfl
    simp only [isPlaced_iff, List.tail_append_of_ne_nil hne, List.dropLast_append_of_ne_nil hne',
      List.dropLast_concat, List.forall_mem_append, List.forall_mem_cons, List.tail_cons, hback,
      hfront, List.not_mem_nil, false_imp_iff, implies_true, and_true]
    tauto

/-- The first parts describe what the others describe, are pinned like them, and where the
condition holds they are written like them. -/
structure Resembles (spare : Prop) (parts' parts : List Tree) : Prop where
  nil : parts = [] → parts' = []
  language : ∀ M, languageOfParts M parts' = languageOfParts M parts
  pins : (pinsOfParts parts').plain = (pinsOfParts parts).plain
  pieces : spare → piecesOfParts parts' = piecesOfParts parts

namespace Resembles

variable {spare : Prop} {a a' b b' c : List Tree}

theorem refl (spare : Prop) (parts : List Tree) : Resembles spare parts parts :=
  ⟨id, fun _ => rfl, rfl, fun _ => rfl⟩

theorem trans (h : Resembles spare a b) (h' : Resembles spare b c) : Resembles spare a c where
  nil hc := h.nil (h'.nil hc)
  language M := (h.language M).trans (h'.language M)
  pins := h.pins.trans h'.pins
  pieces hs := (h.pieces hs).trans (h'.pieces hs)

theorem front (h : Resembles spare a b) :
    (pinsOfParts a).front.plain = (pinsOfParts b).front.plain :=
  congrArg Pins.front h.pins

theorem back (h : Resembles spare a b) :
    (pinsOfParts a).back.plain = (pinsOfParts b).back.plain :=
  congrArg Pins.back h.pins

/-- Parts that are added to each other, and are placed there. Nothing is left there of what is
pinned nowhere. -/
theorem append (ha : Resembles spare a' a) (hb : Resembles spare b' b)
    (hplaced : IsPlaced (a ++ b)) : Resembles spare (a' ++ b') (a ++ b) where
  nil h := by
    rw [List.append_eq_nil_iff] at h ⊢
    exact ⟨ha.nil h.1, hb.nil h.2⟩
  language M := by
    rw [languageOfParts_append, languageOfParts_append, ha.language, hb.language]
  pieces hs := by rw [piecesOfParts_append, piecesOfParts_append, ha.pieces hs, hb.pieces hs]
  pins := by
    obtain ⟨-, -, hmeet⟩ := isPlaced_append.mp hplaced
    have hfront : (pinsOfParts (a' ++ b')).front.plain = (pinsOfParts (a ++ b)).front.plain := by
      rw [pinsOfParts_append_front, pinsOfParts_append_front]
      by_cases hnil : a = []
      · rw [if_pos hnil, if_pos (ha.nil hnil), hb.front]
      rw [if_neg hnil]
      split
      next hnil' =>
        have hfree : (pinsOfParts a).front.plain = .free := by rw [← ha.front, hnil']; rfl
        rw [hb.front, hfree]
        by_cases hb' : b = []
        · rw [hb']; rfl
        · exact (hmeet hnil hb').2
      next => exact ha.front
    have hback : (pinsOfParts (a' ++ b')).back.plain = (pinsOfParts (a ++ b)).back.plain := by
      rw [pinsOfParts_append_back, pinsOfParts_append_back]
      by_cases hnil : b = []
      · rw [if_pos hnil, if_pos (hb.nil hnil), ha.back]
      rw [if_neg hnil]
      split
      next hnil' =>
        have hfree : (pinsOfParts b).back.plain = .free := by rw [← hb.back, hnil']; rfl
        rw [ha.back, hfree]
        by_cases ha' : a = []
        · rw [ha']; rfl
        · exact (hmeet ha' hnil).1
      next => exact hb.back
    exact congrArg₂ Pins.mk hfront hback

/-- Parts that resemble others may stand in their place. -/
theorem isPlaced (hb : Resembles spare b' b) (hb' : IsPlaced b') (h : IsPlaced (a ++ b)) :
    IsPlaced (a ++ b') := by
  obtain ⟨ha, -, hmeet⟩ := isPlaced_append.mp h
  refine isPlaced_append.mpr ⟨ha, hb', fun hne hne' => ?_⟩
  obtain ⟨hback, hfront⟩ := hmeet hne fun hnil => hne' (hb.nil hnil)
  exact ⟨hback, hb.front.trans hfront⟩

theorem isPlaced_left (ha : Resembles spare a' a) (ha' : IsPlaced a') (h : IsPlaced (a ++ b)) :
    IsPlaced (a' ++ b) := by
  obtain ⟨-, hb, hmeet⟩ := isPlaced_append.mp h
  refine isPlaced_append.mpr ⟨ha', hb, fun hne hne' => ?_⟩
  obtain ⟨hback, hfront⟩ := hmeet (fun hnil => hne (ha.nil hnil)) hne'
  exact ⟨ha.back.trans hback, hfront⟩

end Resembles

/-! ## Anchors -/

/-- A start anchor with nothing behind it. -/
def startAnchor : Tree := empty.pinned (.only .front .anchor)

/-- An end anchor with nothing before it. -/
def endAnchor : Tree := empty.pinned (.only .back .anchor)

theorem language_empty : empty.language M = 1 := by
  rw [empty, language_ofParts, languageOfParts]

@[simp] theorem language_startAnchor : startAnchor.language M = 1 := by
  rw [startAnchor, language_pinned, language_empty]

@[simp] theorem language_endAnchor : endAnchor.language M = 1 := by
  rw [endAnchor, language_pinned, language_empty]

@[simp] theorem pieces_startAnchor : startAnchor.pieces = [.caret] := by decide

@[simp] theorem pieces_endAnchor : endAnchor.pieces = [.dollar] := by decide

/-- The start anchor of the node, if it has one. -/
def anchorsBefore (t : Tree) : List Tree := if t.ownPins.front.inSome then [startAnchor] else []

/-- The end anchor of the node, if it has one. -/
def anchorsBehind (t : Tree) : List Tree := if t.ownPins.back.inSome then [endAnchor] else []

/-- The pins that the anchors of a node give it. -/
def shownPins (p : Pins) : Pins where
  front := if p.front.inSome then .anchor else .free
  back := if p.back.inSome then .anchor else .free

/-- The pins of the node can be told from what is written: they are those of its anchors and those
that it has from its children, if it occurs just once. -/
structure IsShown (t : Tree) : Prop where
  pins : t.pins.plain = t.derivedPins.plain.union (shownPins t.ownPins)
  repeated : t.occurs = .once ∨ t.derivedPins.plain = .free

instance : DecidablePred IsShown := fun t =>
  decidable_of_iff (t.pins.plain = t.derivedPins.plain.union (shownPins t.ownPins) ∧
      (t.occurs = .once ∨ t.derivedPins.plain = .free))
    ⟨fun h => ⟨h.1, h.2⟩, fun h => ⟨h.pins, h.repeated⟩⟩

/-- Pins that are shown do not contradict each other. The anchors of the node hold in all
branches. -/
theorem Every.inSome_of_shown (h : t.Every IsShown) (side : Side)
    (hall : (t.pins.on side).inAll = true) : (t.pins.on side).inSome = true := by
  induction t using inductChildren with
  | node t ih =>
    obtain ⟨ht, hs⟩ := every_iff.mp h
    have hpins := congrArg (Pins.on · side) ht.pins
    simp only [Pins.on_plain, Pins.on_union] at hpins
    have hderived : (t.derivedPins.on side).inAll = true → (t.derivedPins.on side).inSome = true :=
      inSome_of_derived_inAll side fun c hc => ih c hc (hs c hc)
    have hshown :
        ((shownPins t.ownPins).on side).inAll = ((shownPins t.ownPins).on side).inSome := by
      cases side <;> simp only [shownPins, Pins.on] <;> split <;> rfl
    change (t.pins.on side).plain.inAll = true at hall
    change (t.pins.on side).plain.inSome = true
    rw [hpins, Pin.union, Bool.or_eq_true] at hall ⊢
    exact hall.imp hderived (hshown ▸ id)

theorem Every.derived_free (h : t.Every IsShown) (side : Side)
    (hsome : (t.derivedPins.on side).inSome = false) : (t.derivedPins.on side).plain = .free :=
  Pin.plain_eq_free.mpr ⟨hsome, eq_false_of_imp
    (inSome_of_derived_inAll side fun c hc => ((every_iff.mp h).2 c hc).inSome_of_shown side) hsome⟩

theorem derived_inSome_of_own {side : Side} (h : (t.ownPins.on side).inSome = true) :
    (t.derivedPins.on side).inSome = false := by
  rw [ownPins_on] at h
  simpa using (Bool.and_eq_true_iff.mp h).2

section Anchored

variable {spare : Prop} {inner : List Tree}

theorem languageOfParts_anchorsBefore (t : Tree) (M : Meaning) :
    languageOfParts M t.anchorsBefore = 1 := by
  unfold anchorsBefore
  split <;> simp [languageOfParts]

theorem languageOfParts_anchorsBehind (t : Tree) (M : Meaning) :
    languageOfParts M t.anchorsBehind = 1 := by
  unfold anchorsBehind
  split <;> simp [languageOfParts]

theorem piecesOfParts_anchorsBefore (t : Tree) :
    piecesOfParts t.anchorsBefore = if t.ownPins.front.inSome then [.caret] else [] := by
  unfold anchorsBefore
  split <;> simp [piecesOfParts]

theorem piecesOfParts_anchorsBehind (t : Tree) :
    piecesOfParts t.anchorsBehind = if t.ownPins.back.inSome then [.dollar] else [] := by
  unfold anchorsBehind
  split <;> simp [piecesOfParts]

/-- The anchors of a node pin what its children do not pin. An anchor decides about its side;
without one, the part that is outermost there does. -/
theorem plain_pinsOfParts_anchored (hpins : (pinsOfParts inner).plain = t.derivedPins.plain) :
    (pinsOfParts (t.anchorsBefore ++ (inner ++ t.anchorsBehind))).plain =
      t.derivedPins.plain.union (shownPins t.ownPins) := by
  have hanchor : ∀ p : Pin, p.plain.union .anchor = Pin.anchor.plain := fun p => by
    simp [Pin.plain, Pin.union, Pin.anchor]
  have hnil : inner = [] → t.derivedPins.plain = .free := by
    rintro rfl
    exact hpins.symm
  have hfront : (pinsOfParts (t.anchorsBefore ++ (inner ++ t.anchorsBehind))).front.plain =
      t.derivedPins.plain.front.union (shownPins t.ownPins).front := by
    rw [pinsOfParts_append_front, pinsOfParts_append_front, anchorsBefore, shownPins]
    split
    next => exact (hanchor _).symm
    next =>
      rw [if_pos rfl, Pin.union_free]
      split
      next h =>
        rw [hnil h, anchorsBehind]
        split <;> rfl
      next => exact congrArg Pins.front hpins
  have hback : (pinsOfParts (t.anchorsBefore ++ (inner ++ t.anchorsBehind))).back.plain =
      t.derivedPins.plain.back.union (shownPins t.ownPins).back := by
    rw [pinsOfParts_append_back, pinsOfParts_append_back, anchorsBehind, shownPins]
    split
    next =>
      rw [if_neg (by simp), if_neg (by simp)]
      exact (hanchor _).symm
    next =>
      rw [List.append_nil, if_pos rfl, Pin.union_free]
      split
      next h =>
        rw [hnil h, anchorsBefore]
        split <;> rfl
      next => exact congrArg Pins.back hpins
  exact congrArg₂ Pins.mk hfront hback

/-- Between the anchors of a node stands what is pinned as its children pin it. -/
theorem resembles_anchored (h : t.IsShown) (hlanguage : ∀ M, languageOfParts M inner = t.language M)
    (hpins : (pinsOfParts inner).plain = t.derivedPins.plain)
    (hpieces : spare → piecesOfParts inner = t.innerPieces ++ quantifierPieces t.occurs) :
    Resembles spare (t.anchorsBefore ++ (inner ++ t.anchorsBehind)) [t] where
  nil h := absurd h (List.cons_ne_nil _ _)
  language M := by
    rw [languageOfParts_append, languageOfParts_append, languageOfParts_anchorsBefore,
      languageOfParts_anchorsBehind, hlanguage, one_mul, mul_one, languageOfParts_singleton]
  pieces hs := by
    rw [piecesOfParts_append, piecesOfParts_append, piecesOfParts_anchorsBefore,
      piecesOfParts_anchorsBehind, hpieces hs, piecesOfParts_singleton, pieces_eq, enclosedPieces]
    simp
  pins := by
    rw [pinsOfParts_singleton, h.pins]
    exact plain_pinsOfParts_anchored hpins

/-- Parts between the anchors of a node stand where their pins allow it, as the node has an anchor
of its own on a side only if its children do not pin it there. -/
theorem isPlaced_anchored (h : t.Every IsShown) (hinner : IsPlaced inner)
    (hpins : (pinsOfParts inner).plain = t.derivedPins.plain) :
    IsPlaced (t.anchorsBefore ++ (inner ++ t.anchorsBehind)) := by
  have hfront : t.anchorsBefore ≠ [] → (pinsOfParts inner).front.plain = .free := by
    unfold anchorsBefore
    split
    next hown =>
      intro _
      exact (congrArg Pins.front hpins).trans
        (h.derived_free .front (derived_inSome_of_own hown))
    next => simp
  have hback : t.anchorsBehind ≠ [] → (pinsOfParts inner).back.plain = .free := by
    unfold anchorsBehind
    split
    next hown =>
      intro _
      exact (congrArg Pins.back hpins).trans
        (h.derived_free .back (derived_inSome_of_own hown))
    next => simp
  have hbefore : IsPlaced t.anchorsBefore ∧ (pinsOfParts t.anchorsBefore).back.plain = .free := by
    unfold anchorsBefore
    split
    · exact ⟨isPlaced_singleton _, rfl⟩
    · exact ⟨isPlaced_nil, rfl⟩
  have hbehind : IsPlaced t.anchorsBehind ∧ (pinsOfParts t.anchorsBehind).front.plain = .free := by
    unfold anchorsBehind
    split
    · exact ⟨isPlaced_singleton _, rfl⟩
    · exact ⟨isPlaced_nil, rfl⟩
  refine isPlaced_append.mpr ⟨hbefore.1, isPlaced_append.mpr ⟨hinner, hbehind.1, fun _ hne =>
    ⟨hback hne, hbehind.2⟩⟩, fun hne _ => ⟨hbefore.2, ?_⟩⟩
  rw [pinsOfParts_append_front]
  split
  · exact hbehind.2
  · exact hfront hne

end Anchored

/-! ## Terms -/

section Terms

variable {spare : Prop} {x : Tree}

/-- A tree with a start anchor resembles the anchor with the tree behind it. -/
theorem resembles_pinned_front (hc : t.IsConsistent) (hfree : t.pins.front.plain = .free) :
    Resembles spare [t.pinned (.only .front .anchor)] [startAnchor, t] where
  nil h := absurd h (List.cons_ne_nil _ _)
  language M := by simp [languageOfParts]
  pieces _ := by
    have hsome := (Pin.plain_eq_free.mp hfree).1
    rw [piecesOfParts_singleton, piecesOfParts, piecesOfParts_singleton, pieces_startAnchor,
      pieces_pinned_front hsome (eq_false_of_imp (hc.inSome_of_derived .front) hsome)]
    rfl
  pins := by
    have hfront : (t.pins.front.union .anchor).plain = Pin.anchor.plain := by
      simp [Pin.plain, Pin.union, Pin.anchor]
    rw [pinsOfParts_singleton, pins_pinned]
    exact congrArg₂ Pins.mk hfront (congrArg Pin.plain (Pin.union_free _))

/-- A tree with an end anchor resembles the tree with the anchor behind it. -/
theorem resembles_pinned_back (hc : t.IsConsistent) (hfree : t.pins.back.plain = .free) :
    Resembles spare [t.pinned (.only .back .anchor)] [t, endAnchor] where
  nil h := absurd h (List.cons_ne_nil _ _)
  language M := by simp [languageOfParts]
  pieces _ := by
    have hsome := (Pin.plain_eq_free.mp hfree).1
    rw [piecesOfParts_singleton, piecesOfParts, piecesOfParts_singleton, pieces_endAnchor,
      pieces_pinned_back hsome (eq_false_of_imp (hc.inSome_of_derived .back) hsome)]
  pins := by
    have hback : (t.pins.back.union .anchor).plain = Pin.anchor.plain := by
      simp [Pin.plain, Pin.union, Pin.anchor]
    rw [pinsOfParts_singleton, pins_pinned]
    exact congrArg₂ Pins.mk (congrArg Pin.plain (Pin.union_free _)) hback

/-- The node without anchors of its own. -/
def bare (t : Tree) : Tree := t.withMark { t.mark with pins := t.derivedPins }

theorem language_bare (t : Tree) : t.bare.language M = t.language M := language_withMark rfl

theorem pieces_bare (t : Tree) : t.bare.pieces = t.innerPieces ++ quantifierPieces t.occurs := by
  have hinner : t.bare.innerPieces = t.innerPieces := innerPieces_withMark rfl
  have hoccurs : t.bare.occurs = t.occurs := occurs_withMark _ _
  rw [pieces_of_own, hinner, hoccurs]
  intro side
  rw [ownPins_on, bare, pins_withMark, derivedPins_withMark]
  simp [Pin.diff]

/-- The tree may be read as the atom of the node: it is what a single occurrence is without the
anchors of the node. -/
structure IsAtomOf (spare : Prop) (t x : Tree) : Prop where
  language : ∀ M, x.language M = t.languageOnce M
  pins : x.pins.plain = t.derivedPins.plain
  once : spare → t.occurs = .once → x.pieces = t.innerPieces
  repeated : spare → t.occurs ≠ .once →
    (Pattern.repeated x t.occurs).pieces = t.innerPieces ++ [.ofExtent t.occurs]

/-- The atom of a node that occurs once resembles the node without its anchors. -/
theorem IsAtomOf.resembles_once (h : IsAtomOf spare t x) (honce : t.occurs = .once) :
    Resembles spare [x] [t.bare] where
  nil h := absurd h (List.cons_ne_nil _ _)
  language M := by
    rw [languageOfParts_singleton, languageOfParts_singleton, h.language, language_bare,
      language_eq_repeated t, honce, Extent.repeated_once]
  pieces hs := by
    rw [piecesOfParts_singleton, piecesOfParts_singleton, h.once hs honce, pieces_bare, honce,
      quantifierPieces, if_pos rfl, List.append_nil]
  pins := by rw [pinsOfParts_singleton, pinsOfParts_singleton, h.pins, bare, pins_withMark]

/-- What is repeated is not pinned. -/
theorem IsAtomOf.resembles_repeated (h : IsAtomOf spare t x) (ht : t.IsShown)
    (hne : t.occurs ≠ .once) : Resembles spare [Pattern.repeated x t.occurs] [t.bare] where
  nil h := absurd h (List.cons_ne_nil _ _)
  language M := by
    rw [languageOfParts_singleton, languageOfParts_singleton, language_repeated, h.language,
      language_bare, language_eq_repeated t]
  pieces hs := by
    rw [piecesOfParts_singleton, piecesOfParts_singleton, h.repeated hs hne, pieces_bare,
      quantifierPieces, if_neg hne]
  pins := by
    have hfree := ht.repeated.resolve_left hne
    have hpins := h.pins.trans hfree
    rw [pinsOfParts_singleton, pinsOfParts_singleton, bare, pins_withMark, Pattern.pins_repeated,
      hfree]
    split
    · exact congrArg Pins.loosen hpins
    · exact hpins

/-- A character of the class of a leaf. -/
theorem isAtomOf_class {cls : CharClass} (hlanguage : ∀ M, t.languageOnce M = singles (M cls))
    (hderived : t.derivedPins.plain = .free) (hinner : spare → t.innerPieces = [.ofClass cls])
    (source : String) : IsAtomOf spare t ((ofClass cls).withSource source) where
  language M := by
    rw [language_withSource, language_eq_repeated, hlanguage]
    exact Extent.repeated_once _
  pins := by rw [hderived, withSource, pins_withMark]; rfl
  once hs _ := by
    rw [pieces_withSource, hinner hs]
    exact pieces_of_own fun side => by cases side <;> rfl
  repeated hs hne := by
    have hpins : ((ofClass cls).withSource source).pins = .free := rfl
    have hplain : Pattern.repeated ((ofClass cls).withSource source) t.occurs =
        ((ofClass cls).withSource source).withOccurs t.occurs :=
      congrArg (withOccurs · _) (if_pos ⟨rfl, rfl⟩)
    rw [hplain, pieces_withOccurs hpins, hinner hs, quantifierPieces, if_neg hne]
    rfl

theorem resembles_withSource (x : Tree) (source : String) :
    Resembles spare [x.withSource source] [x] where
  nil h := absurd h (List.cons_ne_nil _ _)
  language M := by rw [languageOfParts_singleton, languageOfParts_singleton, language_withSource]
  pieces _ := by rw [piecesOfParts_singleton, piecesOfParts_singleton, pieces_withSource]
  pins := by rw [pinsOfParts_singleton, pinsOfParts_singleton, withSource, pins_withMark]; rfl

end Terms

end Tree

namespace Pattern.Frame.Joined

variable {terms : List (Nat × Tree)} {t : Tree}

theorem language (h : Joined terms t) (M : Meaning) :
    t.language M = Tree.languageOfParts M (terms.map Prod.snd) := by
  cases h with
  | none => rw [Tree.language_empty]; rfl
  | one start => exact (Tree.languageOfParts_singleton _).symm
  | many source => rw [Tree.language_withSource, Tree.language_ofParts]

theorem pins (h : Joined terms t) : t.pins = Tree.pinsOfParts (terms.map Prod.snd) := by
  cases h with
  | none => rfl
  | one start => rfl
  | many source => rw [Tree.withSource, Tree.pins_withMark]; rfl

/-- An alternative has the pieces of its terms. -/
theorem pieces (h : Joined terms t) : t.pieces = Tree.piecesOfParts (terms.map Prod.snd) := by
  cases h with
  | none => rfl
  | one start => exact (Tree.piecesOfParts_singleton _).symm
  | many source =>
    rw [Tree.pieces_withSource, Tree.ofParts, Tree.pieces_of_own, Tree.innerPieces,
      Tree.isGrouped_sequence]
    · simp [Tree.quantifierPieces, Tree.occurs, Tree.mark]
    · intro side
      rw [Tree.ownPins_on]
      simp [Tree.pins, Tree.mark, Tree.derivedPins, Pin.diff]

end Pattern.Frame.Joined

namespace Tree

variable {t u : Tree}

/-! ## Members -/

/-- A member behind a bar. -/
def barred (t : Tree) : List Char := '|' :: t.chars false

/-- The first members describe what the others describe, are pinned like them, and where the
condition holds they are written like them. There may be more of them. -/
structure ResemblesMembers (spare : Prop) (members' members : List Tree) : Prop where
  length : members.length ≤ members'.length
  language : ∀ M, languageOfMembers M members' = languageOfMembers M members
  inSome : ∀ side, (members'.any fun t => (t.pins.on side).inSome) =
    members.any fun t => (t.pins.on side).inSome
  inAll : ∀ side, (members'.all fun t => (t.pins.on side).inAll) =
    members.all fun t => (t.pins.on side).inAll
  chars : spare → members'.flatMap barred = members.flatMap barred

/-- Members with a bar in front of each are the choice with a bar in front of it. -/
theorem flatMap_barred {members : List Tree} (hne : members ≠ []) :
    members.flatMap barred = '|' :: charsOfMembers members := by
  induction members with
  | nil => exact absurd rfl hne
  | cons t ts ih =>
    cases ts with
    | nil => simp [barred, charsOfMembers]
    | cons u ts =>
      rw [List.flatMap_cons, ih (List.cons_ne_nil u ts), charsOfMembers]
      simp [barred]

namespace ResemblesMembers

variable {spare : Prop} {a a' b b' c : List Tree}

theorem refl (spare : Prop) (members : List Tree) : ResemblesMembers spare members members :=
  ⟨Nat.le_refl _, fun _ => rfl, fun _ => rfl, fun _ => rfl, fun _ => rfl⟩

theorem trans (h : ResemblesMembers spare a b) (h' : ResemblesMembers spare b c) :
    ResemblesMembers spare a c where
  length := h'.length.trans h.length
  language M := (h.language M).trans (h'.language M)
  inSome side := (h.inSome side).trans (h'.inSome side)
  inAll side := (h.inAll side).trans (h'.inAll side)
  chars hs := (h.chars hs).trans (h'.chars hs)

/-- Members that are added to each other. -/
theorem append (ha : ResemblesMembers spare a' a) (hb : ResemblesMembers spare b' b) :
    ResemblesMembers spare (a' ++ b') (a ++ b) where
  length := by
    rw [List.length_append, List.length_append]
    exact Nat.add_le_add ha.length hb.length
  language M := by
    rw [languageOfMembers_append, languageOfMembers_append, ha.language, hb.language]
  inSome side := by rw [List.any_append, List.any_append, ha.inSome, hb.inSome]
  inAll side := by rw [List.all_append, List.all_append, ha.inAll, hb.inAll]
  chars hs := by rw [List.flatMap_append, List.flatMap_append, ha.chars hs, hb.chars hs]

theorem ne_nil (h : ResemblesMembers spare a b) (hb : b ≠ []) : a ≠ [] :=
  List.length_pos_iff.mp (Nat.lt_of_lt_of_le (List.length_pos_iff.mpr hb) h.length)

/-- Members that resemble each other are pinned alike. -/
theorem pins (h : ResemblesMembers spare a b) (hb : b ≠ []) :
    (pinsOfMembers a).plain = (pinsOfMembers b).plain := by
  have hon : ∀ side, ((pinsOfMembers a).on side).plain = ((pinsOfMembers b).on side).plain := by
    intro side
    have ha : a.isEmpty = false := List.isEmpty_eq_false_iff.mpr (h.ne_nil hb)
    have hb : b.isEmpty = false := List.isEmpty_eq_false_iff.mpr hb
    rw [pinsOfMembers_on, pinsOfMembers_on]
    simp [Pin.plain, Pin.ofBranches, List.any_map, List.all_map, Function.comp_def, h.inSome,
      h.inAll, ha, hb]
  exact congrArg₂ Pins.mk (hon .front) (hon .back)

theorem charsOfMembers_eq (h : ResemblesMembers spare a b) (hb : b ≠ []) (hs : spare) :
    charsOfMembers a = charsOfMembers b := by
  have hchars := h.chars hs
  rw [flatMap_barred hb, flatMap_barred (h.ne_nil hb)] at hchars
  exact (List.cons.inj hchars).2

end ResemblesMembers

/-! ## Sparing trees -/

/-- Whether the tree is a choice that is written without a group where there is nothing beside
it. -/
def isBareChoice (t : Tree) : Bool :=
  match t with
  | choice _ _ => !t.isGrouped false
  | _ => false

/-- The tree is written as a group, although nothing asks for one where nothing stands beside
it. -/
def IsBracketed (t : Tree) : Prop := signs t.pieces = [.group] ∧ t.isBareChoice = false

instance : DecidablePred IsBracketed := fun t =>
  inferInstanceAs (Decidable (signs t.pieces = [.group] ∧ t.isBareChoice = false))

/-- No group is written around the node or a member of it that could do without. -/
def IsSparing : Tree → Prop
  | leaf _ _ => True
  | sequence parts m => (sequence parts m).isGrouped true = true →
    signs (piecesOfParts parts) ≠ [.atom] ∧ signs (piecesOfParts parts) ≠ [.group]
  | choice members _ => ∀ t ∈ members, ¬t.IsBracketed

instance : DecidablePred IsSparing
  | leaf _ _ => .isTrue trivial
  | sequence parts m => inferInstanceAs (Decidable ((sequence parts m).isGrouped true = true →
      signs (piecesOfParts parts) ≠ [.atom] ∧ signs (piecesOfParts parts) ≠ [.group]))
  | choice members _ => inferInstanceAs (Decidable (∀ t ∈ members, ¬t.IsBracketed))

end Tree

end Exemplar
