import Exemplar.Proofs.Padding.Separation
import Exemplar.Proofs.Sources

/-!
# The pieces that a tree is written in

The pattern of a part of a sequence is a row of pieces: anchors, atoms, groups and quantifiers. What
stands in a group does not show outside of it.

A quantifier belongs to the piece in front of it. So a row of pieces needs a group around it before
it can be repeated, unless it is an atom or a group already.

## Main definitions

* `Tree.pieces`: the pieces of a tree

## Main results

* `Tree.chars_eq_pieces`: the pattern of a part, piece by piece
* `Tree.pieces_repeated`: the pieces of what is repeated
-/

namespace Exemplar

/-- What a piece of a pattern is. -/
inductive Sign where
  | caret
  | atom
  | group
  | quantifier
  | dollar
deriving DecidableEq

/-- A piece of a pattern. -/
structure Piece where
  sign : Sign
  text : List Char
deriving DecidableEq

namespace Piece

/-- The start anchor. -/
def caret : Piece := ⟨.caret, ['^']⟩

/-- The end anchor. -/
def dollar : Piece := ⟨.dollar, ['$']⟩

/-- An atom other than a group. -/
def ofClass (cls : CharClass) : Piece := ⟨.atom, cls.chars⟩

/-- A group around a pattern. -/
def group (inner : List Char) : Piece := ⟨.group, '(' :: '?' :: ':' :: inner ++ [')']⟩

/-- A quantifier. -/
def ofExtent (e : Extent) : Piece := ⟨.quantifier, e.quantifier⟩

end Piece

namespace Tree

variable {t : Tree} {e : Extent}

/-- The quantifier of a node, if it has one. -/
def quantifierPieces (e : Extent) : List Piece := if e = .once then [] else [.ofExtent e]

/-- The pieces of a node around those of a single occurrence. -/
def enclosedPieces (t : Tree) (inner : List Piece) : List Piece :=
  (if t.ownPins.front.inSome then [.caret] else []) ++ inner ++ quantifierPieces t.occurs
    ++ (if t.ownPins.back.inSome then [.dollar] else [])

mutual

/-- The pieces that the tree is written in as a part of a sequence. -/
def pieces : Tree → List Piece
  | leaf cls m => enclosedPieces (leaf cls m) [.ofClass cls]
  | sequence parts m =>
    enclosedPieces (sequence parts m) <|
      if (sequence parts m).isGrouped true then [.group (charsOfParts parts)]
      else piecesOfParts parts
  | choice members m => enclosedPieces (choice members m) [.group (charsOfMembers members)]

/-- The pieces of the parts, one after the other. -/
def piecesOfParts : List Tree → List Piece
  | [] => []
  | t :: ts => pieces t ++ piecesOfParts ts

end

/-- What kinds of pieces the parts are written in. -/
def signs (pieces : List Piece) : List Sign := pieces.map Piece.sign

theorem piecesOfParts_append (parts rest : List Tree) :
    piecesOfParts (parts ++ rest) = piecesOfParts parts ++ piecesOfParts rest := by
  induction parts with
  | nil => rfl
  | cons t ts ih => rw [List.cons_append, piecesOfParts, piecesOfParts, ih, List.append_assoc]

theorem piecesOfParts_singleton (t : Tree) : piecesOfParts [t] = t.pieces := by
  rw [piecesOfParts, piecesOfParts, List.append_nil]

/-- The pieces of a node without its quantifier and its anchors. -/
def innerPieces : Tree → List Piece
  | leaf cls _ => [.ofClass cls]
  | sequence parts m =>
    if (sequence parts m).isGrouped true then [.group (charsOfParts parts)]
    else piecesOfParts parts
  | choice members _ => [.group (charsOfMembers members)]

theorem pieces_eq (t : Tree) : t.pieces = t.enclosedPieces t.innerPieces := by
  cases t <;> rw [pieces, innerPieces]

/-! ### The text of the pieces -/

theorem charsOfParts_eq_pieces_of {parts : List Tree}
    (h : ∀ t ∈ parts, t.chars true = t.pieces.flatMap Piece.text) :
    charsOfParts parts = (piecesOfParts parts).flatMap Piece.text := by
  induction parts with
  | nil => rfl
  | cons t ts ih =>
    rw [List.forall_mem_cons] at h
    rw [charsOfParts, piecesOfParts, List.flatMap_append, h.1, ih h.2]

theorem enclose_eq_pieces {inner : List Char} {rest : List Piece}
    (h : rest.flatMap Piece.text =
      if t.isGrouped true then '(' :: '?' :: ':' :: inner ++ [')'] else inner) :
    t.enclose true inner = (t.enclosedPieces rest).flatMap Piece.text := by
  rw [enclose, enclosedPieces, quantifierPieces, ← h]
  split <;> split <;> split <;> simp [Piece.caret, Piece.dollar, Piece.ofExtent]

/-- The pattern of a part of a sequence, piece by piece. -/
theorem chars_eq_pieces (t : Tree) : t.chars true = t.pieces.flatMap Piece.text := by
  induction t with
  | leaf cls m =>
    rw [chars, pieces]
    exact enclose_eq_pieces (by simp [isGrouped, Piece.ofClass])
  | sequence parts m ih =>
    rw [chars, pieces]
    refine enclose_eq_pieces ?_
    split
    · simp [Piece.group]
    · exact (charsOfParts_eq_pieces_of ih).symm
  | choice members m ih =>
    rw [chars, pieces]
    exact enclose_eq_pieces (by simp [isGrouped, Piece.group])

theorem charsOfParts_eq_pieces (parts : List Tree) :
    charsOfParts parts = (piecesOfParts parts).flatMap Piece.text :=
  charsOfParts_eq_pieces_of fun t _ => chars_eq_pieces t

/-! ### Other marks -/

/-- Whether a sequence is grouped depends on its parts and on how often it occurs. -/
theorem isGrouped_sequence {inSequence : Bool} {parts : List Tree} {m : Mark} :
    (sequence parts m).isGrouped inSequence = (decide (m.occurs ≠ .once) &&
      !parts.head?.any fun t => t.isPlainLeaf && parts.length = 1) := by
  match parts with
  | [] => simp [isGrouped]
  | [part] => simp [isGrouped]
  | part :: part' :: rest => simp [isGrouped]

theorem isGrouped_withMark {m : Mark} (h : m.occurs = t.occurs) :
    (t.withMark m).isGrouped true = t.isGrouped true := by
  cases t with
  | leaf => rfl
  | sequence parts m' => rw [withMark, isGrouped_sequence, isGrouped_sequence, h]; rfl
  | choice => rfl

/-- Pins and texts make no difference to the pieces inside of a node. -/
theorem innerPieces_withMark {m : Mark} (h : m.occurs = t.occurs) :
    (t.withMark m).innerPieces = t.innerPieces := by
  have hgrouped := isGrouped_withMark h
  cases t with
  | leaf => rfl
  | sequence parts m' =>
    rw [withMark] at hgrouped ⊢
    rw [innerPieces, hgrouped, innerPieces]
  | choice => rfl

@[simp] theorem innerPieces_pinned (t : Tree) (p : Pins) :
    (t.pinned p).innerPieces = t.innerPieces :=
  innerPieces_withMark rfl

@[simp] theorem pieces_withSource (t : Tree) (source : String) :
    (t.withSource source).pieces = t.pieces := by
  have hown : (t.withSource source).ownPins = t.ownPins := by
    rw [ownPins, withSource, pins_withMark, derivedPins_withMark]
    rfl
  have hinner : (t.withSource source).innerPieces = t.innerPieces := innerPieces_withMark rfl
  have hoccurs : (t.withSource source).occurs = t.occurs := occurs_withMark _ _
  rw [pieces_eq, pieces_eq, enclosedPieces, enclosedPieces, hown, hinner, hoccurs]

/-- A start anchor is written in front of a node that is not pinned there. -/
theorem pieces_pinned_front (hfree : t.pins.front.inSome = false)
    (hderived : t.derivedPins.front.inSome = false) :
    (t.pinned (.only .front .anchor)).pieces = .caret :: t.pieces := by
  have hown : t.ownPins.front.inSome = false := by simp [ownPins, Pins.diff, Pin.diff, hfree]
  have hfront : (t.pinned (.only .front .anchor)).ownPins.front.inSome = true := by
    simp [ownPins, Pins.diff, Pin.diff, Pins.union, Pin.union, Pins.only, Pin.anchor, hderived]
  have hback : (t.pinned (.only .front .anchor)).ownPins.back = t.ownPins.back := by
    simp [ownPins, Pins.diff, Pins.union, Pins.only]
  rw [pieces_eq, pieces_eq, enclosedPieces, enclosedPieces, hfront, hback, hown, occurs_pinned,
    innerPieces_pinned]
  rfl

/-- An end anchor is written behind a node that is not pinned there. -/
theorem pieces_pinned_back (hfree : t.pins.back.inSome = false)
    (hderived : t.derivedPins.back.inSome = false) :
    (t.pinned (.only .back .anchor)).pieces = t.pieces ++ [.dollar] := by
  have hown : t.ownPins.back.inSome = false := by simp [ownPins, Pins.diff, Pin.diff, hfree]
  have hback : (t.pinned (.only .back .anchor)).ownPins.back.inSome = true := by
    simp [ownPins, Pins.diff, Pin.diff, Pins.union, Pin.union, Pins.only, Pin.anchor, hderived]
  have hfront : (t.pinned (.only .back .anchor)).ownPins.front = t.ownPins.front := by
    simp [ownPins, Pins.diff, Pins.union, Pins.only]
  rw [pieces_eq, pieces_eq, enclosedPieces, enclosedPieces, hfront, hback, hown, occurs_pinned,
    innerPieces_pinned]
  simp

/-! ### What is repeated -/

/-- The pieces of a node without anchors of its own. -/
theorem pieces_of_own (hown : ∀ side, (t.ownPins.on side).inSome = false) :
    t.pieces = t.innerPieces ++ quantifierPieces t.occurs := by
  have hfront : t.ownPins.front.inSome = false := hown .front
  have hback : t.ownPins.back.inSome = false := hown .back
  rw [pieces_eq, enclosedPieces, hfront, hback]
  simp

theorem pieces_withOccurs (hpins : t.pins = .free) (e : Extent) :
    (t.withOccurs e).pieces = (t.withOccurs e).innerPieces ++ quantifierPieces e := by
  have hfree : (t.withOccurs e).pins = .free := by
    rw [withOccurs, pins_withMark, hpins]
    split <;> rfl
  rw [pieces_of_own fun side => by simp [ownPins, hfree, Pin.diff, Pin.free], withOccurs,
    occurs_withMark]

theorem ownPins_leaf {cls : CharClass} {m : Mark} : (leaf cls m).ownPins = m.pins := by
  simp [ownPins, pins, mark, derivedPins, Pins.diff, Pin.diff, Pins.free, Pin.free]

/-- A plain leaf occurs once and is not pinned. -/
theorem of_isPlainLeaf (h : t.isPlainLeaf = true) :
    ∃ cls m, t = leaf cls m ∧ m.occurs = .once ∧ (leaf cls m).ownPins = .free := by
  cases t with
  | leaf cls m =>
    obtain ⟨honce, hown⟩ := Bool.and_eq_true_iff.mp (show (decide (m.occurs = .once) &&
      decide ((leaf cls m).ownPins = .free)) = true from h)
    exact ⟨cls, m, rfl, of_decide_eq_true honce, of_decide_eq_true hown⟩
  | sequence => cases h
  | choice => cases h

/-- What is repeated without a group is a single character. -/
theorem exists_leaf_of_isGrouped {parts : List Tree} {m : Mark} (hne : m.occurs ≠ .once)
    (hgrouped : (sequence parts m).isGrouped true = false) : ∃ cls m', parts = [leaf cls m'] ∧
      m'.occurs = .once ∧ (leaf cls m').ownPins = .free := by
  rw [isGrouped_sequence, decide_eq_true hne, Bool.true_and, Bool.not_eq_false'] at hgrouped
  cases parts with
  | nil => cases hgrouped
  | cons part rest =>
    obtain ⟨hplain, rfl⟩ : part.isPlainLeaf = true ∧ rest = [] := by simpa using hgrouped
    obtain ⟨cls, m', rfl, honce, hown⟩ := of_isPlainLeaf hplain
    exact ⟨cls, m', rfl, honce, hown⟩

theorem pieces_leaf {cls : CharClass} {m : Mark} (honce : m.occurs = .once)
    (hown : (leaf cls m).ownPins = .free) : (leaf cls m).pieces = [.ofClass cls] := by
  rw [pieces_of_own fun side => by rw [hown, Pins.on_free]; rfl, occurs, mark, honce]
  rfl

/-- A row of pieces is grouped before it is repeated, unless it is an atom or a group already. -/
theorem pieces_repeated (he : e ≠ .once) (hatom : signs t.pieces ≠ [.atom])
    (hgroup : signs t.pieces ≠ [.group]) :
    (Pattern.repeated t e).pieces = [.group (t.chars true), .ofExtent e] := by
  have hquantifier : quantifierPieces e = [.ofExtent e] := if_neg he
  -- Several parts that occur so often.
  have hsequence : ∀ (parts : List Tree) (m : Mark), m.occurs = e →
      signs (piecesOfParts parts) ≠ [.atom] →
      (sequence parts m).innerPieces = [.group (charsOfParts parts)] := by
    rintro parts m rfl hparts
    refine if_pos ?_
    rw [isGrouped_sequence, decide_eq_true he, Bool.true_and, Bool.not_eq_true']
    match parts, hparts with
    | [], _ => rfl
    | [part], hparts =>
      rw [piecesOfParts_singleton] at hparts
      have hplain : part.isPlainLeaf = false := Bool.eq_false_of_not_eq_true fun h => by
        obtain ⟨cls, m', rfl, honce, hown⟩ := of_isPlainLeaf h
        exact hparts (congrArg signs (pieces_leaf honce hown))
      simp [hplain]
    | part :: part' :: rest, _ => simp
  unfold Pattern.repeated
  split
  next hplain =>
    have hpieces := pieces_of_own (t := t) (by simp [ownPins, hplain.2, Pin.diff, Pin.free])
    rw [hplain.1, quantifierPieces, if_pos rfl, List.append_nil] at hpieces
    rw [pieces_withOccurs hplain.2, hquantifier]
    cases t with
    | leaf cls m => exact absurd (congrArg signs hpieces) hatom
    | choice members m => exact absurd (congrArg signs hpieces) hgroup
    | sequence parts m =>
      have honce : m.occurs = .once := hplain.1
      rw [innerPieces, isGrouped_sequence, honce, decide_eq_false (by simp), Bool.false_and,
        if_neg Bool.false_ne_true] at hpieces
      rw [chars_eq_pieces, hpieces, ← charsOfParts_eq_pieces]
      exact congrArg (· ++ _) (hsequence parts _ rfl (hpieces ▸ hatom))
  next hkept =>
    have hown : ∀ side, (((ofParts [t]).withOccurs e).ownPins.on side).inSome = false := by
      intro side
      have hpins : (ofParts [t]).pins.on side = t.pins.on side := by cases side <;> rfl
      have hderived : (ofParts [t]).derivedPins.on side = t.pins.on side := hpins
      rw [ownPins_on, withOccurs, pins_withMark, derivedPins_withMark, hderived]
      split <;> simp [hpins, Pin.diff, Pin.loosen]
    rw [pieces_of_own hown, withOccurs, occurs_withMark, hquantifier]
    have hinner := hsequence [t] { (ofParts [t]).mark with
      occurs := e, pins := if e.least = 0 then (ofParts [t]).pins.loosen else (ofParts [t]).pins }
      rfl (by rwa [piecesOfParts_singleton])
    rw [charsOfParts, charsOfParts, List.append_nil] at hinner
    exact congrArg (· ++ _) hinner

end Tree

end Exemplar
