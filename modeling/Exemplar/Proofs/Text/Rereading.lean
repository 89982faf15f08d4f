import Exemplar.Proofs.Pattern.Enclosure
import Exemplar.Proofs.Pattern.Plain
import Exemplar.Proofs.Text.Resemblance
import Exemplar.Proofs.Text.Tokens

/-!
# Reading what a tree is written with

The reader is run on the tokens of a tree. Where the tree stands in a sequence, what has been read
afterwards resembles what was read before with the tree behind it. Where it is a member of a choice,
the same holds of the members that have been read. Tokens that are read as an atom may be given a
quantifier, and tokens that are read as a pattern may be put in a group.

No lookaround is written, so nothing is refused but what is pinned in the wrong place. And what has
been read is pinned like the tree, so the parts and members of regular trees are not refused.

## Main definitions

* `Frame.now`: the parts of the present alternative that have been read
* `ReadsAs`, `ReadsMembers`: tokens that are read as parts, and as members
* `ReadsAtom`, `ReadsInside`: tokens that are read as an atom, and as a pattern in a group

## Main results

* `ReadsAs.append`: tokens that are read one after the other
* `ReadsMembers.bar`: tokens with a bar between them
* `ReadsInside.group`: a pattern in a group is an atom
* `ReadsAtom.readsAs`: an atom with its quantifier is a part
-/

namespace Exemplar.Pattern

open Exemplar.Tree

variable {pattern : List Char} {position : Nat}

/-! ## Terms and frames -/

/-- The tree has been built, and without lookarounds. -/
def BuiltPlain (t : Tree) : Prop := Built t ∧ IsPlain t

theorem closed_builtPlain : Closed (fun _ => True) False BuiltPlain :=
  closed_built.and (closed_plain id)

theorem BuiltPlain.isConsistent {t : Tree} (h : BuiltPlain t) : t.IsConsistent :=
  (every_iff.mp h.1.consistent).1

/-- Parts that are placed pass the checks. -/
theorem checkPlacement_of_isPlaced {first : Bool} {parts : List (Nat × Tree)}
    (hplain : ∀ part ∈ parts, IsPlain part.2) (hplaced : IsPlaced (parts.map Prod.snd))
    (hfirst : first = false → (pinsOfParts (parts.map Prod.snd)).front.plain = .free) :
    checkPlacement first parts = .ok () := by
  induction parts generalizing first with
  | nil => rfl
  | cons part rest ih =>
    rw [List.forall_mem_cons] at hplain
    rw [List.map_cons, ← List.singleton_append, isPlaced_append] at hplaced
    obtain ⟨-, hrest, hmeet⟩ := hplaced
    refine checkPlacement_cons.mpr ⟨fun h => ⟨?_, hplain.1 .front⟩, fun h => ⟨?_, hplain.1 .back⟩,
      ih hplain.2 hrest fun _ => ?_⟩
    · exact (Pin.plain_eq_free.mp (hfirst h)).1
    · exact (Pin.plain_eq_free.mp (hmeet (by simp) (by simpa using h)).1).1
    · by_cases h : rest.map Prod.snd = []
      · rw [h]; rfl
      · exact (hmeet (by simp) h).2

namespace Term

variable {t : Term}

/-- The tree of the term as far as it has been read. -/
def current (t : Term) : Tree := t.dollared (t.careted t.body)

theorem behind_of_all (h : t.All False BuiltPlain) : t.behind = none := by
  cases hbehind : t.behind with
  | none => rfl
  | some part => exact (h.behind part hbehind).1.elim

theorem ahead?_of_all (h : t.All False BuiltPlain) : t.ahead? = none := by
  cases hahead : t.ahead? with
  | none => rfl
  | some part => exact (h.ahead part hahead).1.elim

/-- Without lookarounds there is nothing to refuse. -/
theorem finish_of_all (h : t.All False BuiltPlain) (source : String) :
    t.finish source = .ok t.current := by
  have hlooked : t.looked source = .ok t.body := by
    simp [looked, behind_of_all h, ahead?_of_all h]
  have hclosed : Closed (fun _ => True) False IsPlain := closed_plain id
  have hcareted : IsPlain (t.careted t.body) := by
    unfold careted
    split
    · exact hclosed.anchored .front h.body.2 (h.body.2 .front)
    · exact h.body.2
  have hfront : t.body.pins.front.byLook = false := h.body.2 .front
  have hback : (t.careted t.body).pins.back.byLook = false := hcareted .back
  simp only [finish, bind_eq_ok, check_eq_ok, pure_eq_ok]
  refine ⟨t.body, hlooked, by simp [hfront], ?_, rfl⟩
  change ¬(t.isAnchored && (t.careted t.body).pins.back.byLook) = true
  simp [hback]

theorem checkOpen_of_all (h : t.All False BuiltPlain) (hopen : t.isAnchored = false) :
    t.checkOpen = .ok () := by
  have hahead := ahead?_of_all h
  unfold isAnchored at hopen
  unfold ahead? at hahead
  unfold checkOpen
  cases hstage : t.stage <;> rw [hstage] at hopen hahead <;> simp_all

/-- A term that is not pinned has no end anchor. -/
theorem isAnchored_eq_false (h : t.current.pins.back.plain = .free) : t.isAnchored = false := by
  by_contra hanchored
  have hanchored : t.isAnchored = true := Bool.eq_true_of_not_eq_false hanchored
  rw [current, dollared, if_pos hanchored, pins_pinned] at h
  have := (Pin.plain_eq_free.mp h).1
  simp [Pins.union, Pin.union, Pins.only, Pin.anchor] at this

end Term

namespace Frame

variable {f : Frame}

/-- The parts of the present alternative as far as they have been read. -/
def now (f : Frame) : List Tree := f.terms.map Prod.snd ++ f.term.toList.map Term.current

theorem now_of_none (h : f.term = none) : f.now = f.terms.map Prod.snd := by
  rw [now, h, Option.toList_none, List.map_nil, List.append_nil]

theorem now_of_some {t : Term} (h : f.term = some t) :
    f.now = f.terms.map Prod.snd ++ [t.current] := by
  rw [now, h]
  rfl

theorem of_now_eq_nil (h : f.now = []) : f.terms = [] ∧ f.term = none := by
  rw [now, List.append_eq_nil_iff, List.map_eq_nil_iff, List.map_eq_nil_iff,
    Option.toList_eq_nil_iff] at h
  exact h

theorem isAnchored_of_now (h : f.now ≠ [] → (pinsOfParts f.now).back.plain = .free) :
    ∀ t ∈ f.term, t.isAnchored = false := by
  intro t ht
  have hnow := now_of_some ht
  have hback := h (by simp [hnow])
  rw [hnow, pinsOfParts_append_back, if_neg (List.cons_ne_nil _ _)] at hback
  exact Term.isAnchored_eq_false hback

/-- Ending a term of what has been built plainly succeeds, and adds what has been read of it to the
terms. -/
theorem endTerm_of_all (h : f.All False BuiltPlain) (pattern : List Char) (position : Nat) :
    ∃ f', f.endTerm pattern position = .ok f' ∧ f'.terms.map Prod.snd = f.now ∧ f'.term = none ∧
      f'.branches = f.branches ∧ f'.opening = f.opening := by
  unfold endTerm
  cases ht : f.term with
  | none => exact ⟨f, rfl, (now_of_none ht).symm, ht, rfl, rfl⟩
  | some t =>
    dsimp only
    rw [Term.finish_of_all (h.term t ht)]
    refine ⟨_, rfl, ?_, rfl, rfl, rfl⟩
    rw [now_of_some ht]
    simp

/-- A frame without an end anchor is ready for more. -/
theorem ready_of_all (h : f.All False BuiltPlain) (hopen : ∀ t ∈ f.term, t.isAnchored = false)
    (pattern : List Char) (position : Nat) :
    ∃ g, f.ready pattern position = .ok g ∧ g.now = f.now ∧ g.branches = f.branches ∧
      g.opening = f.opening ∧ ∀ t ∈ g.term, t.stage = .opened ∧ g = f := by
  unfold ready
  cases ht : f.term with
  | none => exact ⟨f, rfl, rfl, rfl, rfl, fun t ht' => by rw [ht] at ht'; cases ht'⟩
  | some t =>
    dsimp only
    rw [Term.checkOpen_of_all (h.term t ht) (hopen t ht)]
    by_cases hstage : t.stage = .opened
    · refine ⟨f, by simp [hstage, bind, Except.bind]; rfl, rfl, rfl, rfl, fun t' ht' => ?_⟩
      obtain rfl : t = t' := Option.some.inj (ht.symm.trans ht')
      exact ⟨hstage, rfl⟩
    · obtain ⟨f', hend, hnow, hterm, hbranches, hopening⟩ := endTerm_of_all h pattern position
      refine ⟨f', ?_, by rw [now_of_none hterm, hnow], hbranches, hopening, by simp [hterm]⟩
      cases hs : t.stage <;> first | exact absurd hs hstage | exact hend

/-- The tree is that of the present alternative, as far as it has been read. -/
def IsBranch (f : Frame) (t : Tree) : Prop := ∃ terms, terms.map Prod.snd = f.now ∧ Joined terms t

/-- Parts that are placed make up an alternative. -/
theorem branch_of_all (h : f.All False BuiltPlain) (hplaced : IsPlaced f.now)
    (pattern : List Char) (position : Nat) :
    ∃ t, f.branch pattern position = .ok t ∧ f.IsBranch t := by
  obtain ⟨f', hend, hterms, -⟩ := endTerm_of_all h pattern position
  have hall := h.endTerm closed_builtPlain hend
  have hplace : checkPlacement true f'.terms = .ok () :=
    checkPlacement_of_isPlaced (fun part hpart => (hall.terms part hpart).2) (hterms ▸ hplaced)
      nofun
  suffices h : ∃ t, f.branch pattern position = .ok t by
    obtain ⟨t, ht⟩ := h
    obtain ⟨g, hg, -, hjoined⟩ := of_branch ht
    obtain rfl : f' = g := Except.ok.inj (hend.symm.trans hg)
    exact ⟨t, ht, f'.terms, hterms, hjoined⟩
  unfold branch
  simp only [hend, hplace, bind, Except.bind]
  split <;> exact ⟨_, rfl⟩

/-- The tree of the frame: that of its only alternative, or a choice. -/
theorem tree_of_all (h : f.All False BuiltPlain) (hplaced : IsPlaced f.now)
    (pattern : List Char) (position : Nat) :
    ∃ t last, f.tree pattern position = .ok t ∧ f.IsBranch last ∧
      ((f.branches = [] ∧ t = last) ∨ (f.branches ≠ [] ∧
        ∃ source, t = (ofMembers (f.branches ++ [last])).withSource source)) := by
  obtain ⟨last, hlast, hbranch⟩ := branch_of_all h hplaced pattern position
  suffices ht : ∃ t, f.tree pattern position = .ok t by
    obtain ⟨t, ht⟩ := ht
    obtain ⟨last', hlast', hcases⟩ := of_tree ht
    obtain rfl : last = last' := Except.ok.inj (hlast.symm.trans hlast')
    exact ⟨t, last, ht, hbranch, hcases⟩
  unfold Frame.tree
  simp only [hlast, bind, Except.bind]
  split <;> exact ⟨_, rfl⟩

end Frame

/-! ## The reader -/

namespace Reader

variable {r r' : Reader} {ts : List Token}

theorem run_singleton {t : Token} (h : r.step pattern t = .ok r') :
    r.run pattern [t] = (r', none) := by
  rw [run, h]
  rfl

/-- What holds of the reader between the tokens of a tree: everything has been built without
lookarounds, a term that waits for its atom has a start anchor, and the parts of the present
alternative are placed. -/
structure Steady (r : Reader) : Prop where
  all : r.All False BuiltPlain
  waiting : ∀ t ∈ r.frame.term, t.stage = .opened → t.caret = true ∧ r.frame.terms = []
  placed : IsPlaced r.frame.now

/-- The second reader is in the same frame as the first one, and knows of the same lookarounds. -/
structure Beside (r r' : Reader) : Prop where
  outer : r'.outer = r.outer
  opening : r'.frame.opening = r.frame.opening
  lookaround : r'.lookaround = r.lookaround

theorem Beside.refl (r : Reader) : r.Beside r := ⟨rfl, rfl, rfl⟩

theorem Beside.trans {r'' : Reader} (h : r.Beside r') (h' : r'.Beside r'') : r.Beside r'' :=
  ⟨h'.outer.trans h.outer, h'.opening.trans h.opening, h'.lookaround.trans h.lookaround⟩

theorem steady_of_opened (h : r.All False BuiltPlain) (hnow : r.frame.now = []) : r.Steady where
  all := h
  waiting t ht := by
    rw [(Frame.of_now_eq_nil hnow).2] at ht
    cases ht
  placed := hnow ▸ isPlaced_nil

end Reader

open Reader

/-! ## Parts -/

variable {spare : Prop} {ts ts' : List Token} {us us' : List Tree} {t u : Tree}

/-- The tokens are read as the parts: where the parts may be added, reading succeeds, and what has
been read resembles what was read before with the parts behind it. -/
def ReadsAs (spare : Prop) (ts : List Token) (us : List Tree) : Prop :=
  ∀ (pattern : List Char) (r : Reader), r.Steady → IsPlaced (r.frame.now ++ us) →
    ∃ r', r.run pattern ts = (r', none) ∧ r'.Steady ∧ r.Beside r' ∧
      r'.frame.branches = r.frame.branches ∧
      Resembles spare r'.frame.now (r.frame.now ++ us)

theorem readsAs_nil : ReadsAs spare [] [] := fun pattern r hr _ =>
  ⟨r, rfl, hr, .refl r, rfl, by rw [List.append_nil]; exact .refl _ _⟩

/-- Tokens that are read one after the other. -/
theorem ReadsAs.append (h : ReadsAs spare ts us) (h' : ReadsAs spare ts' us') :
    ReadsAs spare (ts ++ ts') (us ++ us') := by
  intro pattern r hr hplaced
  rw [← List.append_assoc] at hplaced ⊢
  obtain ⟨r₁, hrun, hr₁, hbeside, hbranches, hnow⟩ := h pattern r hr (isPlaced_append.mp hplaced).1
  obtain ⟨r₂, hrun', hr₂, hbeside', hbranches', hnow'⟩ :=
    h' pattern r₁ hr₁ (hnow.isPlaced_left hr₁.placed hplaced)
  exact ⟨r₂, (run_append hrun).trans hrun', hr₂, hbeside.trans hbeside',
    hbranches'.trans hbranches, hnow'.trans (hnow.append (.refl _ us') hplaced)⟩

/-- Tokens that are read as parts are read as what these resemble. -/
theorem ReadsAs.resembles (h : ReadsAs spare ts us') (hus : Resembles spare us' us)
    (hplaced' : IsPlaced us') : ReadsAs spare ts us := by
  intro pattern r hr hplaced
  obtain ⟨r', hrun, hr', hbeside, hbranches, hnow⟩ :=
    h pattern r hr (hus.isPlaced hplaced' hplaced)
  exact ⟨r', hrun, hr', hbeside, hbranches, hnow.trans ((Resembles.refl _ _).append hus hplaced)⟩

/-- The sign of the beginning is read as the start anchor, as something pinned at the front comes
first. -/
theorem readsAs_caret : ReadsAs spare [.caret] [startAnchor] := by
  intro pattern r hr hplaced
  have hnil : r.frame.now = [] := by
    by_contra hne
    have := ((isPlaced_append.mp hplaced).2.2 hne (by simp)).2
    exact absurd this (by decide)
  obtain ⟨hterms, hterm⟩ := Frame.of_now_eq_nil hnil
  let stop := r.position + 1
  let term : Term := { start := r.position, caret := true, bodyAt := stop }
  let r' : Reader := { r with frame := { r.frame with term := some term }, position := stop }
  have hready : r.frame.ready pattern r.position = .ok r.frame := by
    unfold Frame.ready
    rw [hterm]
    rfl
  have hstep : r.step pattern .caret = .ok r' := by
    have hfresh : r.frame.isFresh = true := by simp [Frame.isFresh, hterms, hterm]
    exact Takes.step (t := .caret) (.caret hready hfresh)
  have hall := hr.all.step closed_builtPlain (t := .caret) trivial hstep
  have hnow : r'.frame.now = [startAnchor] := by
    rw [Frame.now_of_some (show r'.frame.term = some term from rfl)]
    exact congrArg (· ++ _) (List.map_eq_nil_iff.mpr hterms)
  refine ⟨r', run_singleton hstep, ⟨hall, ?_, ?_⟩, ⟨rfl, rfl, rfl⟩, rfl, ?_⟩
  · intro t ht _
    obtain rfl : term = t := Option.some.inj ht
    exact ⟨rfl, hterms⟩
  · rw [hnow]
    exact isPlaced_singleton _
  · rw [hnow, hnil]
    exact .refl _ _

/-- The sign of the end is read as the end anchor: as a part of its own, or by pinning the term
under way, which has no anchor yet. -/
theorem readsAs_dollar : ReadsAs spare [.dollar] [endAnchor] := by
  intro pattern r hr hplaced
  have hback : r.frame.now ≠ [] → (pinsOfParts r.frame.now).back.plain = .free :=
    fun hne => ((isPlaced_append.mp hplaced).2.2 hne (by simp)).1
  have hopen : (r.frame.termAt r.position).isAnchored = false := by
    unfold Frame.termAt
    cases ht : r.frame.term with
    | none => rfl
    | some t => exact Frame.isAnchored_of_now hback t ht
  have hterm := hr.all.frame.termAt closed_builtPlain r.position
  let term : Term := { r.frame.termAt r.position with
    stage := .anchored r.position (r.frame.termAt r.position).body }
  let r' : Reader :=
    { r with frame := { r.frame with term := some term }, position := r.position + 1 }
  have hstep : r.step pattern .dollar = .ok r' := by
    have hclosing : r.frame.closing r.position = .ok { r.frame.termAt r.position with
        stage := .body (r.frame.termAt r.position).body } :=
      bind_eq_ok.mpr ⟨(), Term.checkOpen_of_all hterm hopen, rfl⟩
    exact Takes.step (t := .dollar) (.dollar hclosing)
  have hall := hr.all.step closed_builtPlain (t := .dollar) trivial hstep
  have hnow : r'.frame.now = r.frame.terms.map Prod.snd ++ [term.current] :=
    Frame.now_of_some (show r'.frame.term = some term from rfl)
  have hres : IsPlaced r'.frame.now ∧
      Resembles spare r'.frame.now (r.frame.now ++ [endAnchor]) := by
    cases ht : r.frame.term with
    | none =>
      have hcurrent : term.current = endAnchor := by simp [term, Frame.termAt, ht]; rfl
      rw [Frame.now_of_none ht] at hplaced ⊢
      rw [hnow, hcurrent]
      exact ⟨hplaced, .refl _ _⟩
    | some t =>
      have hcurrent : term.current = t.current.pinned (.only .back .anchor) := by
        have htermAt : r.frame.termAt r.position = t := by rw [Frame.termAt, ht, Option.getD_some]
        have hanchored : t.isAnchored = false := htermAt ▸ hopen
        simp only [term, htermAt, Term.current, Term.dollared, hanchored]
        rfl
      have hfinish := (hr.all.frame.term t ht).finish closed_builtPlain
        (Term.finish_of_all (hr.all.frame.term t ht) "")
      have hnow' := Frame.now_of_some ht
      rw [hnow'] at hplaced hback ⊢
      rw [hnow, hcurrent]
      rw [List.append_assoc] at hplaced ⊢
      have hfree : t.current.pins.back.plain = .free := by
        have := hback (by simp)
        rwa [pinsOfParts_append_back, if_neg (List.cons_ne_nil _ _)] at this
      have hpinned : Resembles spare _ _ := resembles_pinned_back hfinish.isConsistent hfree
      exact ⟨hpinned.isPlaced (isPlaced_singleton _) hplaced,
        (Resembles.refl _ _).append hpinned hplaced⟩
  refine ⟨r', run_singleton hstep, ⟨hall, ?_, hres.1⟩, ⟨rfl, rfl, rfl⟩, rfl, hres.2⟩
  intro t ht hstage
  obtain rfl : term = t := Option.some.inj ht
  cases hstage

/-! ## Atoms -/

/-- The tokens are read as an atom with the property, in a frame that is ready for it. -/
def ReadsAtom (ts : List Token) (P : Tree → Prop) : Prop :=
  ∀ (pattern : List Char) (r : Reader) (g : Frame), r.All False BuiltPlain →
    r.frame.ready pattern r.position = .ok g →
    ∃ r' place x, r.run pattern ts = (r', none) ∧ r'.All False BuiltPlain ∧ r'.outer = r.outer ∧
      r'.lookaround = r.lookaround ∧ r'.frame = g.bearing place (.atom place x) ∧ P x

/-- The tokens are read as an atom with its quantifier, if it has one, in a frame that is ready for
it. -/
def ReadsBody (ts : List Token) (P : Tree → Prop) : Prop :=
  ∀ (pattern : List Char) (r : Reader) (g : Frame), r.All False BuiltPlain →
    r.frame.ready pattern r.position = .ok g →
    ∃ r' place stage y, r.run pattern ts = (r', none) ∧ r'.All False BuiltPlain ∧
      r'.outer = r.outer ∧ r'.lookaround = r.lookaround ∧ r'.frame = g.bearing place stage ∧
      (stage = .atom place y ∨ stage = .repeated place y) ∧ P y

theorem ReadsAtom.readsBody {P : Tree → Prop} (h : ReadsAtom ts P) : ReadsBody ts P := by
  intro pattern r g hr hready
  obtain ⟨r', place, x, hrun, hall, houter, hlook, hframe, hx⟩ := h pattern r g hr hready
  exact ⟨r', place, _, x, hrun, hall, houter, hlook, hframe, .inl rfl, hx⟩

/-- A character of a class. -/
theorem readsAtom_class (cls : CharClass) : ReadsAtom [.ofClass cls] fun x =>
    ∃ source, x = (Tree.ofClass cls).withSource source := by
  intro pattern r g hr hready
  let stop := r.position + cls.chars.length
  let x := (Tree.ofClass cls).withSource (excerpt pattern r.position stop)
  let r' : Reader :=
    { r with frame := g.bearing r.position (.atom r.position x), position := stop }
  have hstep : r.step pattern (.ofClass cls) = .ok r' := by
    exact Takes.step (t := .ofClass cls) (.atom hready)
  have hall := hr.step closed_builtPlain (t := .ofClass cls) trivial hstep
  exact ⟨r', r.position, x, run_singleton hstep, hall, rfl, rfl, rfl, _, rfl⟩

/-- An atom with a quantifier. A question mark behind an atom is a quantifier. -/
theorem ReadsAtom.quantified {P : Tree → Prop} {e : Extent} (h : ReadsAtom ts P)
    (hleast : e.least < unbounded) (hfree : ∀ x, BuiltPlain x → P x → x.pins.plain = .free) :
    ReadsBody (ts ++ [.ofExtent e]) fun y =>
      ∃ x source, (BuiltPlain x ∧ P x) ∧ y = (repeated x e).withSource source := by
  intro pattern r g hr hready
  obtain ⟨r₁, place, x, hrun, hall, houter, hlook, hframe, hx⟩ := h pattern r g hr hready
  have hbuilt : BuiltPlain x :=
    (hall.frame.term { g.termAt place with stage := .atom place x } (by rw [hframe]; rfl)).body
  let stop := r₁.position + e.quantifier.length
  let y := (repeated x e).withSource (excerpt pattern place stop)
  let r' : Reader := { r₁ with frame := g.bearing place (.repeated place y), position := stop }
  have hstage : r₁.frame.stage? = some (.atom place x) := by rw [hframe]; rfl
  have hpins : x.pins = .free := (Pins.plain_of_byLook hbuilt.2).symm.trans (hfree x hbuilt hx)
  have hquantify : r₁.quantify pattern stop (.ok e) =
      .ok { r₁ with frame := g.bearing place (.repeated place y) } :=
    Reader.quantify_bearing hframe (hpins ▸ limitRepeat_free e place)
  have htakes : r₁.Takes pattern stop e.lexeme
      { r₁ with frame := g.bearing place (.repeated place y) } := by
    unfold Extent.lexeme
    split
    next hoptional =>
      refine .optional (fun _ _ hrepeated => ?_) (hoptional ▸ hquantify)
      rw [hstage] at hrepeated
      cases hrepeated
    next => exact .times hquantify
  have hstep : r₁.step pattern (.ofExtent e) = .ok r' :=
    Takes.step (t := .ofExtent e) htakes
  have hallowed : e.lexeme.IsAllowed (fun _ => True) False := by
    unfold Extent.lexeme
    split
    · trivial
    · exact hleast
  exact ⟨r', place, _, y, (run_append hrun).trans (run_singleton hstep),
    hall.step closed_builtPlain (t := .ofExtent e) hallowed hstep, houter, hlook, rfl, .inr rfl,
    x, _, ⟨hbuilt, hx⟩, rfl⟩

/-- The body of a term is added to the parts that have been read, behind a start anchor if there is
one. -/
theorem ReadsBody.readsAs {P : Tree → Prop} (h : ReadsBody ts P)
    (hP : ∀ y, BuiltPlain y → P y → Resembles spare [y] [u]) : ReadsAs spare ts [u] := by
  intro pattern r hr hplaced
  have hmeet := (isPlaced_append.mp hplaced).2.2
  obtain ⟨g, hready, hnow, hbranches, hopening, hterm⟩ := Frame.ready_of_all hr.all.frame
    (Frame.isAnchored_of_now fun hne => (hmeet hne (by simp)).1) pattern r.position
  obtain ⟨r', place, stage, y, hrun, hall, houter, hlook, hframe, hstage, hPy⟩ :=
    h pattern r g hr.all hready
  let term : Term := { g.termAt place with stage }
  have hterm' : r'.frame.term = some term := by rw [hframe]; rfl
  have hbody : term.body = y := by rcases hstage with rfl | rfl <;> rfl
  have hy : BuiltPlain y := hbody ▸ (hall.frame.term term hterm').body
  have hres := hP y hy hPy
  have hcurrent : term.current = if (g.termAt place).caret then y.pinned (.only .front .anchor)
      else y := by
    have hanchored : term.isAnchored = false := by rcases hstage with rfl | rfl <;> rfl
    rw [Term.current, Term.dollared, hanchored, if_neg Bool.false_ne_true, hbody]
    rfl
  have hnow' : r'.frame.now = g.terms.map Prod.snd ++ [term.current] := by
    rw [Frame.now_of_some hterm', hframe]
    rfl
  have hread : IsPlaced r'.frame.now ∧ Resembles spare r'.frame.now (r.frame.now ++ [u]) := by
    cases ht : g.term with
    | none =>
      have hcaret : (g.termAt place).caret = false := by rw [Frame.termAt, ht]; rfl
      rw [hnow', hcurrent, hcaret, if_neg Bool.false_ne_true, ← Frame.now_of_none ht, hnow]
      exact ⟨hres.isPlaced (isPlaced_singleton y) hplaced, (Resembles.refl _ _).append hres hplaced⟩
    -- The term under way has only a start anchor so far.
    | some t =>
      obtain ⟨hopened, rfl⟩ := hterm t ht
      obtain ⟨hcaret, hterms⟩ := hr.waiting t ht hopened
      have hcaret' : (r.frame.termAt place).caret = true := by rw [Frame.termAt, ht]; exact hcaret
      have hstart : r.frame.now = [startAnchor] := by
        have hbody : t.body = .empty := by rw [Term.body, hopened]
        have hanchored : t.isAnchored = false := by rw [Term.isAnchored, hopened]
        rw [Frame.now_of_some ht, hterms, Term.current, Term.dollared, hanchored, Term.careted,
          hcaret, hbody]
        rfl
      have hfree : y.pins.front.plain = .free :=
        hres.front.trans (hmeet (by rw [hstart]; simp) (by simp)).2
      rw [hstart] at hplaced ⊢
      rw [hnow', hterms, hcurrent, hcaret', if_pos rfl]
      refine ⟨isPlaced_singleton _, (resembles_pinned_front hy.isConsistent hfree).trans ?_⟩
      exact (Resembles.refl spare [startAnchor]).append hres hplaced
  refine ⟨r', hrun, ⟨hall, ?_, hread.1⟩, ⟨houter, ?_, hlook⟩, ?_, hread.2⟩
  · intro t ht hopened
    obtain rfl : term = t := Option.some.inj (hterm'.symm.trans ht)
    rcases hstage with rfl | rfl <;> cases hopened
  · rw [hframe]
    exact hopening
  · rw [hframe]
    exact hbranches

/-- An atom for a node with the quantifier of the node. -/
theorem ReadsAtom.readsAs {P : Tree → Prop} (h : ReadsAtom ts P) (ht : t.IsShown)
    (hleast : t.occurs.least < unbounded)
    (hP : ∀ x, BuiltPlain x → P x → IsAtomOf spare t x) :
    ReadsAs spare (ts ++ if t.occurs = .once then [] else [.ofExtent t.occurs]) [t.bare] := by
  split
  next honce =>
    rw [List.append_nil]
    exact h.readsBody.readsAs fun x hx hPx => (hP x hx hPx).resembles_once honce
  next hne =>
    have hfree : ∀ x, BuiltPlain x → P x → x.pins.plain = .free := fun x hx hPx =>
      (hP x hx hPx).pins.trans (ht.repeated.resolve_left hne)
    refine (h.quantified hleast hfree).readsAs fun y _ hy => ?_
    obtain ⟨x, source, ⟨hx, hPx⟩, rfl⟩ := hy
    exact (resembles_withSource _ source).trans ((hP x hx hPx).resembles_repeated ht hne)

/-! ## Groups -/

/-- The tokens are read as a pattern of its own whose tree has the property. -/
def ReadsInside (ts : List Token) (P : Tree → Prop) : Prop :=
  ∀ (pattern : List Char) (r : Reader), r.Steady → r.frame.now = [] → r.frame.branches = [] →
    ∃ r' t, r.run pattern ts = (r', none) ∧ r'.All False BuiltPlain ∧ r.Beside r' ∧
      r'.frame.tree pattern r'.position = .ok t ∧ P t

/-- A pattern in a group is an atom. Its opening makes a frame, and its end hands the tree over to
the frame around it. -/
theorem ReadsInside.group {P : Tree → Prop} (h : ReadsInside ts P) :
    ReadsAtom (.opening :: ts ++ [.closing]) fun x =>
      ∃ t source, P t ∧ x = t.withSource source := by
  intro pattern r g hr hready
  let parent : Frame := { g with term := some (g.termAt r.position) }
  let inside : Reader :=
    { r with
      position := r.position + 3
      frame := .opened (.group r.position) (r.position + 3)
      outer := parent :: r.outer }
  have hopen : r.step pattern .opening = .ok inside := by
    exact Takes.step (t := .opening) (.group hready)
  have hinside : inside.Steady :=
    steady_of_opened (hr.step closed_builtPlain (t := .opening) trivial hopen) rfl
  obtain ⟨r₂, t, hrun, hall, hbeside, htree, ht⟩ := h pattern inside hinside rfl rfl
  let stop := r₂.position + 1
  let x := t.withSource (excerpt pattern r.position stop)
  let closed : Reader :=
    { r₂ with
      position := stop
      frame := g.bearing r.position (.atom r.position x)
      outer := r.outer }
  have hclose : r₂.step pattern .closing = .ok closed := by
    refine (Takes.step (t := .closing) (.close htree hbeside.outer)).trans ?_
    rw [hbeside.opening]
    rfl
  refine ⟨closed, r.position, x, ?_, hall.step closed_builtPlain (t := .closing) trivial hclose,
    rfl, hbeside.lookaround, rfl, t, _, ht, rfl⟩
  rw [List.cons_append, Reader.run, hopen]
  exact (run_append hrun).trans (run_singleton hclose)

/-- The parts of a sequence in a group. -/
theorem ReadsAs.readsInside (h : ReadsAs spare ts us) (hplaced : IsPlaced us) :
    ReadsInside ts fun t => ∃ terms, Frame.Joined terms t ∧
      Resembles spare (terms.map Prod.snd) us := by
  intro pattern r hr hnow hbranches
  obtain ⟨r', hrun, hr', hbeside, hbranches', hres⟩ :=
    h pattern r hr (by rwa [hnow, List.nil_append])
  rw [hnow, List.nil_append] at hres
  obtain ⟨t, last, htree, ⟨terms, hterms, hjoined⟩, ⟨-, rfl⟩ | ⟨hne, -⟩⟩ :=
    Frame.tree_of_all hr'.all.frame hr'.placed pattern r'.position
  · exact ⟨r', t, hrun, hr'.all, hbeside, htree, terms, hjoined, hterms ▸ hres⟩
  · exact absurd (hbranches'.trans hbranches) hne

/-! ## Members -/

/-- The tokens are read as the members: at the beginning of an alternative, reading succeeds, and
the alternatives that have been read resemble those before with the members behind them. -/
def ReadsMembers (spare : Prop) (ts : List Token) (ms : List Tree) : Prop :=
  ∀ (pattern : List Char) (r : Reader), r.Steady → r.frame.now = [] →
    ∃ r', r.run pattern ts = (r', none) ∧ r'.Steady ∧ r.Beside r' ∧
      ∀ last, r'.frame.IsBranch last →
        ResemblesMembers spare (r'.frame.branches ++ [last]) (r.frame.branches ++ ms)

/-- Members that resemble others are read in their place. -/
theorem ReadsMembers.resembles {ms ms' : List Tree} (h : ReadsMembers spare ts ms')
    (hms : ResemblesMembers spare ms' ms) : ReadsMembers spare ts ms := by
  intro pattern r hr hnow
  obtain ⟨r', hrun, hr', hbeside, hres⟩ := h pattern r hr hnow
  exact ⟨r', hrun, hr', hbeside, fun last hlast =>
    (hres last hlast).trans ((ResemblesMembers.refl _ _).append hms)⟩

/-- A part that is the only one of its alternative. -/
theorem ReadsAs.readsMembers (h : ReadsAs spare ts [u])
    (hmember : ∀ terms last, Frame.Joined terms last →
      Resembles spare (terms.map Prod.snd) [u] → ResemblesMembers spare [last] [u]) :
    ReadsMembers spare ts [u] := by
  intro pattern r hr hnow
  obtain ⟨r', hrun, hr', hbeside, hbranches, hres⟩ :=
    h pattern r hr (by rw [hnow]; exact isPlaced_singleton u)
  rw [hnow, List.nil_append] at hres
  refine ⟨r', hrun, hr', hbeside, ?_⟩
  rintro last ⟨terms, hterms, hjoined⟩
  rw [hbranches]
  exact (ResemblesMembers.refl _ _).append (hmember terms last hjoined (hterms ▸ hres))

/-- A bar between members. -/
theorem ReadsMembers.bar {ms ms' : List Tree} (h : ReadsMembers spare ts ms)
    (h' : ReadsMembers spare ts' ms') : ReadsMembers spare (ts ++ .bar :: ts') (ms ++ ms') := by
  intro pattern r hr hnow
  obtain ⟨r₁, hrun, hr₁, hbeside, hres⟩ := h pattern r hr hnow
  obtain ⟨last, hlast, hbranch⟩ :=
    Frame.branch_of_all hr₁.all.frame hr₁.placed pattern r₁.position
  let stop := r₁.position + 1
  let behind : Reader :=
    { r₁ with
      position := stop
      frame := { r₁.frame with
        branches := r₁.frame.branches ++ [last], branchStart := stop, terms := [], term := none } }
  have hstep : r₁.step pattern .bar = .ok behind := by
    exact Takes.step (t := .bar) (.bar hlast)
  have hbehind : behind.Steady :=
    steady_of_opened (hr₁.all.step closed_builtPlain (t := .bar) trivial hstep) rfl
  obtain ⟨r₂, hrun', hr₂, hbeside', hres'⟩ := h' pattern behind hbehind rfl
  have hbar : r₁.Beside behind := ⟨rfl, rfl, rfl⟩
  refine ⟨r₂, ?_, hr₂, (hbeside.trans hbar).trans hbeside', fun last' hlast' => ?_⟩
  · rw [run_append hrun, Reader.run, hstep]
    exact hrun'
  · rw [← List.append_assoc]
    exact (hres' last' hlast').trans ((hres last hbranch).append (.refl _ ms'))

/-- What the tree of a group with these members is. -/
theorem ReadsMembers.readsInside {ms : List Tree} (h : ReadsMembers spare ts ms) :
    ReadsInside ts fun t => ∃ ms', ResemblesMembers spare ms' ms ∧
      (ms' = [t] ∨ ∃ source, t = (ofMembers ms').withSource source) := by
  intro pattern r hr hnow hbranches
  obtain ⟨r', hrun, hr', hbeside, hres⟩ := h pattern r hr hnow
  obtain ⟨t, last, htree, hbranch, hcases⟩ :=
    Frame.tree_of_all hr'.all.frame hr'.placed pattern r'.position
  have hms := hres last hbranch
  rw [hbranches, List.nil_append] at hms
  refine ⟨r', t, hrun, hr'.all, hbeside, htree, _, hms, ?_⟩
  rcases hcases with ⟨hnil, rfl⟩ | ⟨-, source, rfl⟩
  · exact .inl (by rw [hnil]; rfl)
  · exact .inr ⟨source, rfl⟩

end Exemplar.Pattern
