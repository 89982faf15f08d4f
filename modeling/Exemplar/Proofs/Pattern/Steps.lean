import Exemplar.Pattern.Parse
import Exemplar.Proofs.Results

/-!
# What reading does

For each operation of the reader: what has happened when it has succeeded. Whatever is proved of
reading rests on these and does not look into the operations again.

## Main definitions

* `Limited`: what becomes of a quantifier behind an atom with pins
* `Reader.Takes`: what reading a lexeme makes of a reader

## Main results

* `of_checkPlacement`, `limited_of_limitRepeat`: what the checks on pins are passed by
* `Term.of_finish`, `Frame.of_branch`, `Frame.of_tree`: how trees are put together
* `Frame.of_ready`, `Frame.of_closing`: what becomes of the term under way
* `Reader.takes_of_take`, `Reader.Takes.take_eq`: reading a lexeme is no more and no less than that
* `Reader.of_step`, `Reader.of_run`: reading tokens one after the other
-/

namespace Exemplar.Pattern

variable {pattern : List Char} {position stop : Nat}

/-! ## Checks -/

/-- The checks of a row of parts are those of the first one and of the others. -/
theorem checkPlacement_cons {first : Bool} {tree : Tree} {rest : List (Nat × Tree)} :
    checkPlacement first ((position, tree) :: rest) = .ok () ↔
      (first = false → tree.pins.front.inSome = false ∧ tree.pins.front.byLook = false) ∧
      (rest ≠ [] → tree.pins.back.inSome = false ∧ tree.pins.back.byLook = false) ∧
      checkPlacement false rest = .ok () := by
  rw [checkPlacement]
  cases first <;> cases rest <;> cases tree.pins.front.inSome <;>
    cases tree.pins.front.byLook <;> cases tree.pins.back.inSome <;>
    cases tree.pins.back.byLook <;> simp

theorem of_checkPlacement {first : Bool} {tree : Tree} {rest : List (Nat × Tree)}
    (h : checkPlacement first ((position, tree) :: rest) = .ok ()) :
    (first = false → tree.pins.front.inSome = false ∧ tree.pins.front.byLook = false) ∧
      (rest ≠ [] → tree.pins.back.inSome = false ∧ tree.pins.back.byLook = false) ∧
      checkPlacement false rest = .ok () :=
  checkPlacement_cons.mp h

/-- What may stand behind something may stand alone. -/
theorem checkPlacement_of_behind {parts : List (Nat × Tree)}
    (h : checkPlacement false parts = .ok ()) : checkPlacement true parts = .ok () := by
  cases parts with
  | nil => rfl
  | cons part rest =>
    obtain ⟨-, hback, hrest⟩ := of_checkPlacement h
    unfold checkPlacement
    cases rest with
    | nil => simp [hrest]
    | cons => simp [hback (by simp), hrest]

/-- What may be repeated although it is pinned is pinned in all branches, and may occur once. -/
theorem of_checkRepeat {pins : Pins} {occurs : Extent} {side : Side}
    (h : checkRepeat pins occurs position side = .ok ()) (hs : (pins.on side).inSome = true) :
    (pins.on side).inAll = true ∧ occurs.least ≤ 1 := by
  unfold checkRepeat at h
  split at h
  · cases h
  next hpartial =>
    split at h
    · cases h
    next hleast =>
      simp only [Pin.isPartial, hs, Bool.true_and, Bool.not_eq_true', Bool.not_eq_false] at hpartial
      simp only [hs, Bool.true_and, decide_eq_true_eq, Nat.not_lt] at hleast
      exact ⟨hpartial, hleast⟩

/-- What becomes of a quantifier behind an atom with these pins. -/
inductive Limited (pins : Pins) (occurs : Extent) : Extent → Prop where
  | few : occurs.most ≤ 1 → Limited pins occurs occurs
  | free : (∀ side, (pins.on side).byLook = false) → (∀ side, (pins.on side).inSome = false) →
    Limited pins occurs occurs
  | optional (side : Side) : (∀ side, (pins.on side).byLook = false) →
    (pins.on side).inAll = true → 1 < occurs.most → occurs.least = 0 → Limited pins occurs .optional
  | once (side : Side) : (∀ side, (pins.on side).byLook = false) →
    (pins.on side).inAll = true → 1 < occurs.most → occurs.least = 1 → Limited pins occurs .once

/-- An atom without pins may be repeated in any way. -/
theorem limitRepeat_free (occurs : Extent) (position : Nat) :
    limitRepeat .free occurs position = .ok occurs := by
  unfold limitRepeat
  split <;> rfl

/-- What becomes of a quantifier, told by the pins of the atom. One that allows at most one
occurrence is left alone. -/
theorem limited_of_limitRepeat {pins : Pins} {occurs limited : Extent}
    (h : limitRepeat pins occurs position = .ok limited) : Limited pins occurs limited := by
  unfold limitRepeat at h
  split at h
  next hfew =>
    obtain rfl := Except.ok.inj h
    exact .few hfew
  next hmany =>
    simp only [bind_eq_ok, check_eq_ok] at h
    obtain ⟨hlook, _, hfront, _, hback, h⟩ := h
    have hlook' : ∀ side, (pins.on side).byLook = false := by
      simp only [Bool.or_eq_true, not_or, Bool.not_eq_true] at hlook
      intro side
      cases side
      · exact hlook.1
      · exact hlook.2
    have hrepeat : ∀ side, (pins.on side).inSome = true →
        (pins.on side).inAll = true ∧ occurs.least ≤ 1 := by
      intro side
      cases side
      · exact of_checkRepeat hfront
      · exact of_checkRepeat hback
    split at h
    next hsome =>
      obtain ⟨side, hside⟩ : ∃ side, (pins.on side).inSome = true := by
        rcases Bool.or_eq_true _ _ ▸ hsome with h | h
        · exact ⟨.front, h⟩
        · exact ⟨.back, h⟩
      obtain ⟨hall, hleast⟩ := hrepeat side hside
      obtain rfl := Except.ok.inj h
      split
      next h0 => exact .optional side hlook' hall (Nat.lt_of_not_le hmany) h0
      next h0 => exact .once side hlook' hall (Nat.lt_of_not_le hmany) (by omega)
    next hnone =>
      obtain rfl := Except.ok.inj h
      simp only [Bool.or_eq_true, not_or, Bool.not_eq_true] at hnone
      refine .free hlook' fun side => ?_
      cases side
      · exact hnone.1
      · exact hnone.2

/-! ## Terms -/

namespace Term

variable {t : Term} {source : String} {tree : Tree}

theorem of_checkOpen (h : t.checkOpen = .ok ()) : t.isAnchored = false ∧ t.ahead? = none := by
  unfold checkOpen at h
  unfold isAnchored ahead?
  cases hs : t.stage <;> rw [hs] at h <;> simp_all

/-- The trees that a term with lookarounds is put together from. -/
def parts (t : Term) : List (Nat × Tree) :=
  t.behind.toList ++ [(t.bodyAt, t.body)] ++ t.ahead?.toList

/-- The pins that lookarounds give their term. -/
def lookPins (t : Term) : Pins where
  front := if t.behind.isSome then .look else .free
  back := if t.ahead?.isSome then .look else .free

/-- What is between two lookarounds is the body, or a sequence of the parts around it. -/
theorem of_looked (h : t.looked source = .ok tree) :
    (t.behind = none ∧ t.ahead? = none ∧ tree = t.body) ∨
      ((t.behind.isSome = true ∨ t.ahead?.isSome = true) ∧ checkPlacement true t.parts = .ok () ∧
        tree = ((Tree.ofParts (t.parts.map Prod.snd)).pinned t.lookPins).withSource source) := by
  unfold looked at h
  split at h
  next hnone =>
    rw [Bool.and_eq_true, Option.isNone_iff_eq_none, Option.isNone_iff_eq_none] at hnone
    exact .inl ⟨hnone.1, hnone.2, (Except.ok.inj h).symm⟩
  next hsome =>
    simp only [bind_eq_ok, pure_eq_ok] at h
    obtain ⟨_, hplace, rfl⟩ := h
    refine .inr ⟨?_, hplace, rfl⟩
    rw [Option.isSome_iff_ne_none, Option.isSome_iff_ne_none, ← not_and_or]
    simpa using hsome

/-- The tree with a start anchor, or without. -/
def careted (t : Term) (tree : Tree) : Tree :=
  if t.caret then tree.pinned (.only .front .anchor) else tree

/-- The tree with an end anchor, or without. -/
def dollared (t : Term) (tree : Tree) : Tree :=
  if t.isAnchored then tree.pinned (.only .back .anchor) else tree

theorem of_finish (h : t.finish source = .ok tree) :
    ∃ inner, t.looked source = .ok inner ∧
      (t.caret = true → inner.pins.front.byLook = false) ∧
      (t.isAnchored = true → (t.careted inner).pins.back.byLook = false) ∧
      tree = t.dollared (t.careted inner) := by
  simp only [finish, bind_eq_ok, check_eq_ok, pure_eq_ok] at h
  obtain ⟨inner, hlooked, hcaret, hdollar, rfl⟩ := h
  refine ⟨inner, hlooked, ?_, ?_, rfl⟩
  · intro h
    simpa [h] using hcaret
  · intro h
    simpa [h, careted] using hdollar

end Term

/-! ## Frames -/

/-- Whether the opening is one of a lookaround. -/
def Opening.isLook : Opening → Bool
  | .lookbehind _ | .lookahead _ => true
  | _ => false

namespace Frame

variable {f f' : Frame}

/-- The frame with a finished term added. -/
def finished (f : Frame) (start : Nat) (tree : Tree) : Frame :=
  { f with terms := f.terms ++ [(start, tree)], term := none }

/-- A frame ends the term that is under way, if there is one. -/
theorem of_endTerm (h : f.endTerm pattern position = .ok f') :
    (f.term = none ∧ f' = f) ∨
      ∃ t source tree, f.term = some t ∧ t.finish source = .ok tree ∧
        f' = f.finished t.start tree := by
  unfold endTerm at h
  split at h
  next hnone => exact .inl ⟨hnone, (Except.ok.inj h).symm⟩
  next t hsome =>
    simp only [bind_eq_ok, pure_eq_ok] at h
    obtain ⟨tree, hfinish, rfl⟩ := h
    exact .inr ⟨t, _, tree, hsome, hfinish, rfl⟩

/-- A frame is ready for an atom when its term has just been opened, or has been ended, or if there
is none. -/
theorem of_ready (h : f.ready pattern position = .ok f') :
    (f.term = none ∧ f' = f) ∨ (∃ t, f.term = some t ∧ t.stage = .opened ∧ f' = f) ∨
      ∃ t source tree, f.term = some t ∧ t.isAnchored = false ∧ t.ahead? = none ∧
        t.finish source = .ok tree ∧ f' = f.finished t.start tree := by
  unfold ready at h
  split at h
  next hnone => exact .inl ⟨hnone, (Except.ok.inj h).symm⟩
  next t hsome =>
    simp only [bind_eq_ok] at h
    obtain ⟨_, hopen, h⟩ := h
    obtain ⟨hanchored, hahead⟩ := Term.of_checkOpen hopen
    split at h
    next hstage => exact .inr (.inl ⟨t, hsome, hstage, (Except.ok.inj h).symm⟩)
    next =>
      rcases of_endTerm h with ⟨hnone, -⟩ | ⟨t', source, tree, hsome', hfinish, rfl⟩
      · rw [hsome] at hnone
        cases hnone
      · obtain rfl : t = t' := Option.some.inj (hsome.symm.trans hsome')
        exact .inr (.inr ⟨t, source, tree, hsome, hanchored, hahead, hfinish, rfl⟩)

theorem opening_of_ready (h : f.ready pattern position = .ok f') : f'.opening = f.opening := by
  rcases of_ready h with ⟨-, rfl⟩ | ⟨t, -, -, rfl⟩ | ⟨t, source, tree, -, -, -, -, rfl⟩ <;> rfl

theorem of_closing {t : Term} (h : f.closing position = .ok t) :
    (f.termAt position).isAnchored = false ∧ (f.termAt position).ahead? = none ∧
      t = { f.termAt position with stage := .body (f.termAt position).body } := by
  simp only [closing, bind_eq_ok, pure_eq_ok] at h
  obtain ⟨_, hopen, rfl⟩ := h
  exact ⟨(Term.of_checkOpen hopen).1, (Term.of_checkOpen hopen).2, rfl⟩

/-- How the terms of an alternative make up its tree. -/
inductive Joined : List (Nat × Tree) → Tree → Prop where
  | none : Joined [] .empty
  | one (start : Nat) (tree : Tree) : Joined [(start, tree)] tree
  | many (terms : List (Nat × Tree)) (source : String) :
    Joined terms ((Tree.ofParts (terms.map Prod.snd)).withSource source)

/-- An alternative is made of the terms that have been ended, placed where they may stand. -/
theorem of_branch {tree : Tree} (h : f.branch pattern position = .ok tree) :
    ∃ f', f.endTerm pattern position = .ok f' ∧ checkPlacement true f'.terms = .ok () ∧
      Joined f'.terms tree := by
  simp only [branch, bind_eq_ok] at h
  obtain ⟨f', hend, _, hplace, h⟩ := h
  refine ⟨f', hend, hplace, ?_⟩
  split at h
  next hnil =>
    obtain rfl := Except.ok.inj h
    exact hnil ▸ .none
  next start tree' hone =>
    obtain rfl := Except.ok.inj h
    exact hone ▸ .one start tree'
  next =>
    obtain rfl := Except.ok.inj h
    exact .many f'.terms _

/-- The tree of a frame is its only alternative, or a choice between them. -/
theorem of_tree {tree : Tree} (h : f.tree pattern position = .ok tree) :
    ∃ last, f.branch pattern position = .ok last ∧
      ((f.branches = [] ∧ tree = last) ∨ (f.branches ≠ [] ∧
        ∃ source, tree = (Tree.ofMembers (f.branches ++ [last])).withSource source)) := by
  simp only [Frame.tree, bind_eq_ok] at h
  obtain ⟨last, hlast, h⟩ := h
  refine ⟨last, hlast, ?_⟩
  split at h
  next hnil => exact .inl ⟨hnil, (Except.ok.inj h).symm⟩
  next hne => exact .inr ⟨hne, _, (Except.ok.inj h).symm⟩

end Frame

/-! ## The reader -/

namespace Reader

variable {r r' : Reader}

/-- A quantifier repeats the atom in front of it, as often as the pins of the atom allow. -/
theorem of_quantify {occurs : Except Error Extent}
    (h : r.quantify pattern stop occurs = .ok r') :
    ∃ place atom e limited source clamps, r.frame.stage? = some (.atom place atom) ∧
      occurs = .ok e ∧ limitRepeat atom.pins e place = .ok limited ∧
      r' = { r with
        frame := r.frame.withStage (.repeated place ((repeated atom limited).withSource source))
        clamps := clamps } := by
  unfold quantify at h
  split at h
  next place atom hstage =>
    simp only [bind_eq_ok, pure_eq_ok] at h
    obtain ⟨e, he, limited, hlimited, rfl⟩ := h
    exact ⟨place, atom, e, limited, _, _, hstage, he, hlimited, rfl⟩
  next =>
    simp only [bind_eq_ok, throw_eq_ok, and_false, exists_false] at h

/-- An atom that may be repeated so often is given its quantifier. -/
theorem quantify_eq {place : Nat} {atom : Tree} {occurs limited : Extent}
    (hstage : r.frame.stage? = some (.atom place atom))
    (hlimited : limitRepeat atom.pins occurs place = .ok limited) :
    r.quantify pattern stop (.ok occurs) = .ok { r with
      frame := r.frame.withStage
        (.repeated place ((repeated atom limited).withSource (excerpt pattern place stop)))
      clamps := if limited = occurs then r.clamps else r.clamps ++ [⟨occurs, place⟩] } := by
  rw [quantify, hstage]
  exact bind_eq_ok.mpr ⟨occurs, rfl, bind_eq_ok.mpr ⟨limited, hlimited, rfl⟩⟩

/-- A question mark makes a quantifier lazy, or is one. -/
theorem of_question (h : r.question pattern stop = .ok r') :
    (∃ place tree, r.frame.stage? = some (.repeated place tree) ∧
      r' = { r with
        frame := r.frame.withStage (.body (tree.withSource (excerpt pattern place stop))) }) ∨
    ((∀ place tree, r.frame.stage? ≠ some (.repeated place tree)) ∧
      r.quantify pattern stop (.ok .optional) = .ok r') := by
  unfold question at h
  split at h
  next place tree hstage => exact .inl ⟨place, tree, hstage, (Except.ok.inj h).symm⟩
  next hstage => exact .inr ⟨hstage, h⟩

/-- Closing a group hands its tree over to the frame around it. -/
theorem of_close (h : r.close pattern stop = .ok r') :
    ∃ tree parent outer, r.frame.tree pattern r.position = .ok tree ∧
      r.outer = parent :: outer ∧
      r' = { r with frame := parent.receive pattern stop r.frame.opening tree, outer } := by
  simp only [close, bind_eq_ok] at h
  obtain ⟨tree, htree, h⟩ := h
  split at h
  · cases h
  next parent outer houter => exact ⟨tree, parent, outer, htree, houter, (Except.ok.inj h).symm⟩

/-- What reading a lexeme makes of a reader. Of one that is malformed or not offered nothing can be
made. -/
inductive Takes (pattern : List Char) (stop : Nat) (r : Reader) : Lexeme → Reader → Prop where
  /-- The next alternative begins behind the bar and has no terms yet. -/
  | bar {branch : Tree} : r.frame.branch pattern r.position = .ok branch →
    Takes pattern stop r .bar
      { r with
        frame := { r.frame with
          branches := r.frame.branches ++ [branch]
          branchStart := stop
          terms := []
          term := none } }
  | close {tree : Tree} {parent : Frame} {outer : List Frame} :
    r.frame.tree pattern r.position = .ok tree → r.outer = parent :: outer →
    Takes pattern stop r .close
      { r with frame := parent.receive pattern stop r.frame.opening tree, outer }
  | caret {f : Frame} : r.frame.ready pattern r.position = .ok f → f.isFresh = true →
    Takes pattern stop r .caret
      { r with
        frame := { f with term := some { start := r.position, caret := true, bodyAt := stop } } }
  | dollar {t : Term} : r.frame.closing r.position = .ok t →
    Takes pattern stop r .dollar
      { r with
        frame := { r.frame with term := some { t with stage := .anchored r.position t.body } } }
  | group {f : Frame} : r.frame.ready pattern r.position = .ok f →
    Takes pattern stop r .group
      (r.push { f with term := some (f.termAt r.position) } (.group r.position) stop)
  | lookbehind {f : Frame} : r.frame.ready pattern r.position = .ok f → f.isFresh = true →
    Takes pattern stop r .lookbehind
      (r.pushLook { f with term := some (f.termAt r.position) } (.lookbehind r.position) stop)
  | lookahead {t : Term} : r.frame.closing r.position = .ok t →
    Takes pattern stop r .lookahead
      (r.pushLook { r.frame with term := some t } (.lookahead r.position) stop)
  /-- Behind a quantifier, a question mark changes nothing but the source of the tree. -/
  | lazy {place : Nat} {tree : Tree} : r.frame.stage? = some (.repeated place tree) →
    Takes pattern stop r .question
      { r with
        frame := r.frame.withStage (.body (tree.withSource (excerpt pattern place stop))) }
  /-- Anywhere else, it is a quantifier. -/
  | optional {r' : Reader} : (∀ place tree, r.frame.stage? ≠ some (.repeated place tree)) →
    r.quantify pattern stop (.ok .optional) = .ok r' → Takes pattern stop r .question r'
  | times {occurs : Extent} {r' : Reader} : r.quantify pattern stop (.ok occurs) = .ok r' →
    Takes pattern stop r (.times occurs) r'
  | atom {cls : CharClass} {f : Frame} : r.frame.ready pattern r.position = .ok f →
    Takes pattern stop r (.atom cls)
      { r with frame := f.addAtom pattern r.position stop (.ofClass cls) }

/-- A lexeme that is taken changes the reader in one of these ways; those that are errors, or not
offered, are refused whatever comes before them. -/
theorem takes_of_take {l : Lexeme} (h : r.take pattern stop l = .ok r') :
    Takes pattern stop r l r' := by
  cases l with
  | bar =>
    simp only [take, bind_eq_ok, pure_eq_ok] at h
    obtain ⟨branch, hbranch, rfl⟩ := h
    exact .bar hbranch
  | close =>
    obtain ⟨tree, parent, outer, htree, houter, rfl⟩ := of_close h
    exact .close htree houter
  | caret =>
    simp only [take, bind_eq_ok, check_eq_ok, pure_eq_ok] at h
    obtain ⟨f, hready, hfresh, rfl⟩ := h
    exact .caret hready (by simpa using hfresh)
  | dollar =>
    simp only [take, bind_eq_ok, pure_eq_ok] at h
    obtain ⟨t, hclosing, rfl⟩ := h
    exact .dollar hclosing
  | group =>
    simp only [take, bind_eq_ok, pure_eq_ok] at h
    obtain ⟨f, hready, rfl⟩ := h
    exact .group hready
  | lookbehind =>
    simp only [take, bind_eq_ok, check_eq_ok, pure_eq_ok] at h
    obtain ⟨f, hready, hfresh, rfl⟩ := h
    exact .lookbehind hready (by simpa using hfresh)
  | lookahead =>
    simp only [take, bind_eq_ok, pure_eq_ok] at h
    obtain ⟨t, hclosing, rfl⟩ := h
    exact .lookahead hclosing
  | question =>
    rcases of_question h with ⟨place, tree, hstage, rfl⟩ | ⟨hstage, hquantify⟩
    · exact .lazy hstage
    · exact .optional hstage hquantify
  | times occurs => exact .times h
  | atom cls =>
    simp only [take, bind_eq_ok, pure_eq_ok] at h
    obtain ⟨f, hready, rfl⟩ := h
    exact .atom hready
  | brokenTimes e =>
    obtain ⟨_, _, _, _, _, _, -, he, -⟩ := of_quantify h
    cases he
  | negativeLookbehind | negativeLookahead | broken e =>
    simp only [take, bind_eq_ok, throw_eq_ok, and_false, exists_false] at h

/-- What changes the reader in one of these ways is taken. -/
theorem Takes.take_eq {l : Lexeme} (h : Takes pattern stop r l r') :
    r.take pattern stop l = .ok r' := by
  cases h with
  | bar hbranch => exact bind_eq_ok.mpr ⟨_, hbranch, rfl⟩
  | close htree houter => exact bind_eq_ok.mpr ⟨_, htree, by rw [houter]; rfl⟩
  | caret hready hfresh =>
    exact bind_eq_ok.mpr ⟨_, hready, check_eq_ok.mpr ⟨by simp [hfresh], rfl⟩⟩
  | dollar hclosing => exact bind_eq_ok.mpr ⟨_, hclosing, rfl⟩
  | group hready => exact bind_eq_ok.mpr ⟨_, hready, rfl⟩
  | lookbehind hready hfresh =>
    exact bind_eq_ok.mpr ⟨_, hready, check_eq_ok.mpr ⟨by simp [hfresh], rfl⟩⟩
  | lookahead hclosing => exact bind_eq_ok.mpr ⟨_, hclosing, rfl⟩
  | lazy hstage => rw [take, question, hstage]
  | optional hstage hquantify =>
    rw [take, question]
    split
    next place tree hrepeated => exact absurd hrepeated (hstage place tree)
    next => exact hquantify
  | times hquantify => exact hquantify
  | atom hready => exact bind_eq_ok.mpr ⟨_, hready, rfl⟩

/-- A token is read when its lexeme is, and the reader goes to its end. -/
theorem Takes.step {t : Token} {taken : Reader}
    (h : Takes pattern (r.position + t.text.length) r t.lexeme taken) :
    r.step pattern t = .ok { taken with position := r.position + t.text.length } :=
  map_eq_ok.mpr ⟨taken, h.take_eq, rfl⟩

theorem of_step {t : Token} (h : r.step pattern t = .ok r') :
    ∃ taken, Takes pattern (r.position + t.text.length) r t.lexeme taken ∧
      r' = { taken with position := r.position + t.text.length } := by
  simp only [step, map_eq_ok] at h
  obtain ⟨taken, htake, rfl⟩ := h
  exact ⟨taken, takes_of_take htake, rfl⟩

/-- Reading succeeds when the first token can be read and then the others. -/
theorem of_run {t : Token} {ts : List Token} (h : r.run pattern (t :: ts) = (r', none)) :
    ∃ r₁, r.step pattern t = .ok r₁ ∧ r₁.run pattern ts = (r', none) := by
  rw [run] at h
  split at h
  next r₁ hstep => exact ⟨r₁, hstep, h⟩
  next => cases h

/-- What holds before reading and is preserved by every token holds afterwards. -/
theorem run_induction {P : Reader → Prop} {ts : List Token}
    (step : ∀ r r' t, t ∈ ts → P r → r.step pattern t = .ok r' → P r') (h : P r)
    (hrun : r.run pattern ts = (r', none)) : P r' := by
  induction ts generalizing r with
  | nil =>
    obtain rfl : r = r' := (Prod.mk.inj hrun).1
    exact h
  | cons t ts ih =>
    obtain ⟨r₁, hstep, hrun⟩ := of_run hrun
    exact ih (fun r r' t ht => step r r' t (List.mem_cons_of_mem _ ht))
      (step r r₁ t List.mem_cons_self h hstep) hrun

theorem of_finish {whole : Bool} {tree : Tree} (h : r.finish pattern whole = .ok tree) :
    r.frame.tree pattern r.position = .ok tree ∧ r.outer = [] ∧
      (whole = true → r.lookaround = none) := by
  simp only [finish, bind_eq_ok, check_eq_ok] at h
  obtain ⟨tree', htree, houter, h⟩ := h
  have houter' : r.outer = [] := by simpa using houter
  split at h
  · cases h
  next hlook =>
    obtain rfl := Except.ok.inj h
    refine ⟨htree, houter', fun hwhole => ?_⟩
    cases hl : r.lookaround with
    | none => rfl
    | some place => exact absurd hl (hlook place hwhole)

end Reader

/-- Reading a pattern: its tokens are read, and the pattern ends there. -/
theorem of_parse {options : Options} {tree : Tree} (h : parse options pattern = .ok tree) :
    ∃ r, Reader.run pattern {} (tokens options.alphabet.space pattern) = (r, none) ∧
      r.finish pattern options.whole = .ok tree := by
  unfold parse read at h
  split at h
  · cases h
  next r hrun => exact ⟨r, hrun, h⟩

end Exemplar.Pattern
