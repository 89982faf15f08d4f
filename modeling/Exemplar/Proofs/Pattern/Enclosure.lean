import Exemplar.Proofs.Grammar.Lexing
import Exemplar.Proofs.Pattern.Built
import Exemplar.Proofs.Pattern.Locality
import Exemplar.Proofs.Sources

/-!
# Reading inside of a group

Reading depends on tokens, and not on where they stand: what is read of a pattern in a group is what
is read of it alone, but for positions and sources. Two readers are run side by side, one of them
inside of a group that the other one knows nothing of.

## Main definitions

* `Tree.Alike`: trees that differ in their sources only
* `Frame.Alike`: frames in which the same has been read
* `Within`: frames that are alike, the second ones inside of a group
* `grouped`: the text of a pattern in a group

## Main results

* `Term.finish_alike`, `Frame.tree_alike`: frames that are alike lead to trees that are alike
* `Reader.run_within`: reading preserves that frames are alike
* `tokens_grouped`: the tokens of a group do not depend on the text behind it
* `parse_enclosed`: the tree of a pattern that stands in a group between anchors
-/

namespace Exemplar

/-- The trees differ in their sources only. -/
def Tree.Alike (t u : Tree) : Prop := t.unsourced = u.unsourced

namespace Tree.Alike

variable {t u : Tree} {ts us : List Tree}

theorem symm (h : t.Alike u) : u.Alike t := Eq.symm h

theorem pins (h : t.Alike u) : t.pins = u.pins := by
  rw [← t.pins_unsourced, h, u.pins_unsourced]

theorem language (h : t.Alike u) (M : Meaning) : t.language M = u.language M := by
  rw [← t.language_unsourced, h, u.language_unsourced]

theorem withSource (h : t.Alike u) (source source' : String) :
    (t.withSource source).Alike (u.withSource source') := by
  rwa [Alike, unsourced_withSource, unsourced_withSource]

theorem pinned (h : t.Alike u) (p : Pins) : (t.pinned p).Alike (u.pinned p) := by
  rw [Alike, unsourced_pinned, unsourced_pinned, h]

theorem repeated (h : t.Alike u) (e : Extent) :
    (Pattern.repeated t e).Alike (Pattern.repeated u e) := by
  rw [Alike, unsourced_repeated, unsourced_repeated, h]

theorem map_unsourced (h : List.Forall₂ Alike ts us) : ts.map unsourced = us.map unsourced := by
  induction h with
  | nil => rfl
  | cons ht _ ih => rw [List.map_cons, List.map_cons, ht, ih]

theorem ofParts (h : List.Forall₂ Alike ts us) : (Tree.ofParts ts).Alike (Tree.ofParts us) := by
  rw [Alike, unsourced_ofParts, unsourced_ofParts, map_unsourced h]

theorem ofMembers (h : List.Forall₂ Alike ts us) :
    (Tree.ofMembers ts).Alike (Tree.ofMembers us) := by
  rw [Alike, unsourced_ofMembers, unsourced_ofMembers, map_unsourced h]

end Tree.Alike

namespace Pattern

variable {pattern pattern' : List Char} {position position' stop stop' : Nat}

/-! ## Parts -/

/-- Parts at any positions whose trees are alike. -/
def PartsAlike (p q : Nat × Tree) : Prop := p.2.Alike q.2

theorem map_snd_alike {parts parts' : List (Nat × Tree)}
    (h : List.Forall₂ PartsAlike parts parts') :
    List.Forall₂ Tree.Alike (parts.map Prod.snd) (parts'.map Prod.snd) := by
  rwa [List.forall₂_map_left_iff, List.forall₂_map_right_iff]

/-- Parts that are alike may stand in the same places. -/
theorem checkPlacement_alike {first : Bool} {parts parts' : List (Nat × Tree)}
    (h : List.Forall₂ PartsAlike parts parts') (hp : checkPlacement first parts = .ok ()) :
    checkPlacement first parts' = .ok () := by
  induction h generalizing first with
  | nil => rfl
  | @cons part part' rest rest' hpart hrest ih =>
    obtain ⟨hfront, hback, hp⟩ := of_checkPlacement hp
    have hne : rest' ≠ [] → rest ≠ [] := by
      rintro hne rfl
      cases hrest
      exact hne rfl
    rw [hpart.pins] at hfront hback
    exact checkPlacement_cons.mpr ⟨hfront, fun h => hback (hne h), ih hp⟩

/-- Whether an atom can be repeated does not depend on where it stands. -/
theorem checkRepeat_anywhere {pins : Pins} {occurs : Extent} {side : Side}
    (h : checkRepeat pins occurs position side = .ok ()) :
    checkRepeat pins occurs position' side = .ok () := by
  unfold checkRepeat at h ⊢
  split at h
  · cases h
  next hpartial =>
    rw [if_neg hpartial]
    split at h
    · cases h
    next hleast => rw [if_neg hleast]

/-- How often an atom may occur does not depend on where it stands. -/
theorem limitRepeat_alike {atom atom' : Tree} {occurs : Extent} (h : atom.Alike atom') :
    Tracks Eq (limitRepeat atom.pins occurs position)
      (limitRepeat atom'.pins occurs position') := by
  intro limited hlimit
  rw [h.pins] at hlimit
  refine ⟨limited, ?_, rfl⟩
  unfold limitRepeat at hlimit ⊢
  split at hlimit
  next hfew => rwa [if_pos hfew]
  next hmany =>
    rw [if_neg hmany]
    simp only [bind_eq_ok, check_eq_ok] at hlimit ⊢
    obtain ⟨hlook, _, hfront, _, hback, hlimit⟩ := hlimit
    exact ⟨hlook, (), checkRepeat_anywhere hfront, (), checkRepeat_anywhere hback, hlimit⟩

/-! ## Terms -/

/-- Terms that have been read to the same point. -/
inductive Stage.Alike : Stage → Stage → Prop where
  | opened : Alike .opened .opened
  | atom {p p' : Nat} {t t' : Tree} : t.Alike t' → Alike (.atom p t) (.atom p' t')
  | repeated {p p' : Nat} {t t' : Tree} : t.Alike t' → Alike (.repeated p t) (.repeated p' t')
  | body {t t' : Tree} : t.Alike t' → Alike (.body t) (.body t')
  | anchored {p p' : Nat} {t t' : Tree} : t.Alike t' → Alike (.anchored p t) (.anchored p' t')
  | ahead {p p' : Nat} {t t' look look' : Tree} : t.Alike t' → look.Alike look' →
    Alike (.ahead p t look) (.ahead p' t' look')

/-- Terms of which the same has been read. -/
structure Term.Alike (t t' : Term) : Prop where
  caret : t.caret = t'.caret
  behind : Option.Rel PartsAlike t.behind t'.behind
  stage : t.stage.Alike t'.stage

namespace Term

variable {t t' : Term}

/-- Terms that are alike have bodies that are. -/
theorem Alike.body (h : t.Alike t') : t.body.Alike t'.body := by
  have hstage := h.stage
  unfold Term.body
  generalize t.stage = s at hstage ⊢
  generalize t'.stage = s' at hstage ⊢
  cases hstage with
  | opened => rfl
  | atom ht => exact ht
  | repeated ht => exact ht
  | body ht => exact ht
  | anchored ht => exact ht
  | ahead ht => exact ht

theorem Alike.ahead? (h : t.Alike t') : Option.Rel PartsAlike t.ahead? t'.ahead? := by
  have hstage := h.stage
  unfold Term.ahead?
  generalize t.stage = s at hstage ⊢
  generalize t'.stage = s' at hstage ⊢
  cases hstage with
  | ahead _ hlook => exact .some hlook
  | _ => exact .none

theorem Alike.isAnchored (h : t.Alike t') : t.isAnchored = t'.isAnchored := by
  have hstage := h.stage
  unfold Term.isAnchored
  generalize t.stage = s at hstage ⊢
  generalize t'.stage = s' at hstage ⊢
  cases hstage <;> rfl

theorem Alike.checkOpen (h : t.Alike t') (ht : t.checkOpen = .ok ()) : t'.checkOpen = .ok () := by
  have hstage := h.stage
  unfold Term.checkOpen at ht ⊢
  generalize t.stage = s at hstage ht
  generalize t'.stage = s' at hstage ⊢
  cases hstage <;> first | rfl | cases ht

/-- Terms that are alike have parts that are alike one by one. -/
theorem Alike.parts (h : t.Alike t') : List.Forall₂ PartsAlike t.parts t'.parts := by
  have hlist : ∀ {o o' : Option (Nat × Tree)}, Option.Rel PartsAlike o o' →
      List.Forall₂ PartsAlike o.toList o'.toList := by
    intro o o' ho
    cases ho with
    | none => exact .nil
    | some h => exact .cons h .nil
  have hbody : PartsAlike (t.bodyAt, t.body) (t'.bodyAt, t'.body) := h.body
  exact List.rel_append (List.rel_append (hlist h.behind) (.cons hbody .nil)) (hlist h.ahead?)

theorem isNone_eq_of_rel {o o' : Option (Nat × Tree)} (h : Option.Rel PartsAlike o o') :
    o.isNone = o'.isNone ∧ o.isSome = o'.isSome := by
  cases h <;> exact ⟨rfl, rfl⟩

/-- Terms that are alike are looked around in the same way. -/
theorem looked_alike (h : t.Alike t') (source source' : String) :
    Tracks Tree.Alike (t.looked source) (t'.looked source') := by
  obtain ⟨hbehindNone, hbehindSome⟩ := isNone_eq_of_rel h.behind
  obtain ⟨haheadNone, haheadSome⟩ := isNone_eq_of_rel h.ahead?
  simp only [looked, hbehindNone, hbehindSome, haheadNone, haheadSome]
  split
  · exact tracks_ok h.body
  · intro tree ht
    obtain ⟨_, hplace, ht⟩ := bind_eq_ok.mp ht
    refine ⟨_, bind_eq_ok.mpr ⟨(), checkPlacement_alike h.parts hplace, rfl⟩, ?_⟩
    rw [← pure_eq_ok.mp ht]
    exact ((Tree.Alike.ofParts (map_snd_alike h.parts)).pinned _).withSource source source'

/-- Terms that are alike lead to trees that are alike. -/
theorem finish_alike (h : t.Alike t') (source source' : String) :
    Tracks Tree.Alike (t.finish source) (t'.finish source') := by
  simp only [finish]
  refine (looked_alike h source source').bind fun inner inner' hinner => ?_
  have hcareted : (t.careted inner).Alike (t'.careted inner') := by
    unfold careted
    rw [h.caret]
    split
    · exact hinner.pinned _
    · exact hinner
  refine .check (by rw [hinner.pins, h.caret]; exact id) (.check ?_ (tracks_ok ?_))
  · intro hlook
    have : (t'.isAnchored && (t'.careted inner').pins.back.byLook) = true := hlook
    rw [← hcareted.pins, ← h.isAnchored] at this
    exact this
  · show (t.dollared (t.careted inner)).Alike (t'.dollared (t'.careted inner'))
    unfold dollared
    rw [h.isAnchored]
    split
    · exact hcareted.pinned _
    · exact hcareted

theorem alike_fresh {start start' bodyAt bodyAt' : Nat} {caret : Bool} :
    Alike { start, caret, bodyAt } { start := start', caret, bodyAt := bodyAt' } :=
  ⟨rfl, .none, .opened⟩

end Term

/-! ## Frames -/

/-- Frames in which the same has been read. -/
structure Frame.Alike (f f' : Frame) : Prop where
  branches : List.Forall₂ Tree.Alike f.branches f'.branches
  terms : List.Forall₂ PartsAlike f.terms f'.terms
  term : Option.Rel Term.Alike f.term f'.term

namespace Frame

variable {f f' : Frame}

theorem alike_opened {opening opening' : Opening} {start start' : Nat} :
    (opened opening start).Alike (opened opening' start') :=
  ⟨.nil, .nil, .none⟩

theorem Alike.withTerm (h : f.Alike f') {t t' : Term} (ht : t.Alike t') :
    Alike { f with term := some t } { f' with term := some t' } :=
  ⟨h.branches, h.terms, .some ht⟩

/-- Frames that are alike begin terms that are. -/
theorem Alike.termAt (h : f.Alike f') (position position' : Nat) :
    (f.termAt position).Alike (f'.termAt position') := by
  have hterm := h.term
  unfold Frame.termAt
  generalize f.term = t at hterm ⊢
  generalize f'.term = t' at hterm ⊢
  cases hterm with
  | none => exact Term.alike_fresh
  | some ht => exact ht

theorem Alike.stage? (h : f.Alike f') : Option.Rel Stage.Alike f.stage? f'.stage? := by
  have hterm := h.term
  unfold Frame.stage?
  generalize f.term = t at hterm ⊢
  generalize f'.term = t' at hterm ⊢
  cases hterm with
  | none => exact .none
  | some ht => exact .some ht.stage

/-- Frames that are alike remain so when their terms are brought to stages that are. -/
theorem Alike.withStage (h : f.Alike f') {stage stage' : Stage} (hs : stage.Alike stage') :
    (f.withStage stage).Alike (f'.withStage stage') := by
  refine ⟨h.branches, h.terms, ?_⟩
  have hterm := h.term
  unfold Frame.withStage
  generalize f.term = t at hterm ⊢
  generalize f'.term = t' at hterm ⊢
  cases hterm with
  | none => exact .none
  | some ht => exact .some ⟨ht.caret, ht.behind, hs⟩

theorem Alike.isFresh (h : f.Alike f') : f.isFresh = f'.isFresh := by
  obtain ⟨-, hterms, hterm⟩ := h
  unfold Frame.isFresh
  generalize f.terms = terms at hterms ⊢
  generalize f'.terms = terms' at hterms ⊢
  generalize f.term = t at hterm ⊢
  generalize f'.term = t' at hterm ⊢
  cases hterms <;> cases hterm <;> rfl

/-- Frames that are alike end their terms in the same way. -/
theorem endTerm_alike (h : f.Alike f') :
    Tracks Alike (f.endTerm pattern position) (f'.endTerm pattern' position') := by
  have hterm := h.term
  unfold endTerm
  generalize f.term = t at hterm ⊢
  generalize f'.term = t' at hterm ⊢
  cases hterm with
  | none => exact tracks_ok h
  | some hterm =>
    refine (Term.finish_alike hterm _ _).bind fun tree tree' htree => tracks_ok ?_
    exact ⟨h.branches, List.rel_append h.terms (.cons htree .nil), .none⟩

/-- Frames that are alike become ready for an atom in the same way. -/
theorem ready_alike (h : f.Alike f') :
    Tracks Alike (f.ready pattern position) (f'.ready pattern' position') := by
  have hterm := h.term
  unfold ready
  generalize f.term = t at hterm ⊢
  generalize f'.term = t' at hterm ⊢
  cases hterm with
  | none => exact tracks_ok h
  | @some t t' hterm =>
    have hopen : Tracks (fun _ _ => True) t.checkOpen t'.checkOpen :=
      fun _ hopen => ⟨(), hterm.checkOpen hopen, trivial⟩
    refine hopen.bind fun _ _ _ => ?_
    have hstage := hterm.stage
    generalize t.stage = s at hstage ⊢
    generalize t'.stage = s' at hstage ⊢
    cases hstage <;> first | exact tracks_ok h | exact endTerm_alike h

/-- Frames that are alike end their alternatives in the same way. -/
theorem branch_alike (h : f.Alike f') :
    Tracks Tree.Alike (f.branch pattern position) (f'.branch pattern' position') := by
  unfold branch
  refine (endTerm_alike h).bind fun g g' hg => ?_
  have hplace : Tracks (fun _ _ => True) (checkPlacement true g.terms)
      (checkPlacement true g'.terms) :=
    fun _ hplace => ⟨(), checkPlacement_alike hg.terms hplace, trivial⟩
  refine hplace.bind fun _ _ _ => ?_
  have hterms := hg.terms
  generalize g.terms = terms at hterms ⊢
  generalize g'.terms = terms' at hterms ⊢
  cases hterms with
  | nil => exact tracks_ok rfl
  | cons hpart hrest =>
    cases hrest with
    | nil => exact tracks_ok hpart
    | cons hpart' hrest =>
      exact tracks_ok ((Tree.Alike.ofParts
        (map_snd_alike (.cons hpart (.cons hpart' hrest)))).withSource _ _)

/-- Frames that are alike have trees that are, or none. -/
theorem tree_alike (h : f.Alike f') :
    Tracks Tree.Alike (f.tree pattern position) (f'.tree pattern' position') := by
  unfold Frame.tree
  refine (branch_alike h).bind fun last last' hlast => ?_
  have hbranches := h.branches
  generalize f.branches = branches at hbranches ⊢
  generalize f'.branches = branches' at hbranches ⊢
  cases hbranches with
  | nil => exact tracks_ok hlast
  | cons hbranch hrest =>
    exact tracks_ok ((Tree.Alike.ofMembers
      (List.rel_append (.cons hbranch hrest) (.cons hlast .nil))).withSource _ _)

theorem closing_alike (h : f.Alike f') :
    Tracks Term.Alike (f.closing position) (f'.closing position') := by
  have ht := h.termAt position position'
  have hopen : Tracks (fun _ _ => True) (f.termAt position).checkOpen
      (f'.termAt position').checkOpen :=
    fun _ hopen => ⟨(), ht.checkOpen hopen, trivial⟩
  refine hopen.bind fun _ _ _ => tracks_ok ?_
  exact ⟨ht.caret, ht.behind, .body ht.body⟩

/-- Openings of the same kind. -/
inductive OpenedAlike : Opening → Opening → Prop where
  | pattern : OpenedAlike .pattern .pattern
  | group {p p' : Nat} : OpenedAlike (.group p) (.group p')
  | lookbehind {p p' : Nat} : OpenedAlike (.lookbehind p) (.lookbehind p')
  | lookahead {p p' : Nat} : OpenedAlike (.lookahead p) (.lookahead p')

theorem Alike.addAtom (h : f.Alike f') {tree tree' : Tree} (ht : tree.Alike tree') :
    (f.addAtom pattern position stop tree).Alike (f'.addAtom pattern' position' stop' tree') :=
  have := h.termAt position position'
  h.withTerm ⟨this.caret, this.behind, .atom (ht.withSource _ _)⟩

theorem opening_receive (pattern : List Char) (stop : Nat) (opening : Opening) (tree : Tree)
    (f : Frame) : (f.receive pattern stop opening tree).opening = f.opening := by
  cases opening <;> rfl

/-- Frames that are alike receive trees that are alike, and remain so. -/
theorem Alike.receive (h : f.Alike f') {opening opening' : Opening}
    (ho : OpenedAlike opening opening') {tree tree' : Tree} (ht : tree.Alike tree') :
    (f.receive pattern stop opening tree).Alike (f'.receive pattern' stop' opening' tree') := by
  cases ho with
  | pattern => exact h
  | group => exact h.addAtom ht
  | lookbehind => exact h.withTerm ⟨rfl, .some ht, .opened⟩
  | @lookahead p p' =>
    have := h.termAt p p'
    exact h.withTerm ⟨this.caret, this.behind, .ahead this.body ht⟩

end Frame

/-! ## Readers -/

/-- Frames from the inside to the outside in which the same has been read. The outermost of the
first ones goes with a group that the second ones are in, inside of `parent`. -/
inductive Within (parent : Frame) : List Frame → List Frame → Prop where
  | outermost {f f' : Frame} {place : Nat} : f.Alike f' → f'.opening = .group place →
    Within parent [f] [f', parent]
  | inner {f f' : Frame} {fs fs' : List Frame} : f.Alike f' →
    Frame.OpenedAlike f.opening f'.opening → Within parent fs fs' →
    Within parent (f :: fs) (f' :: fs')

namespace Within

variable {parent f f' g g' : Frame} {fs fs' : List Frame}

theorem frame (h : Within parent (f :: fs) (f' :: fs')) : f.Alike f' := by
  cases h with
  | outermost h _ => exact h
  | inner h _ _ => exact h

theorem of_outermost (h : Within parent [f] (f' :: fs')) :
    fs' = [parent] ∧ ∃ place, f'.opening = .group place := by
  cases h with
  | outermost _ hplace => exact ⟨rfl, _, hplace⟩
  | inner _ _ hs => cases hs

/-- Something happens in the innermost frames. -/
theorem withFrame (h : Within parent (f :: fs) (f' :: fs')) (hg : g.Alike g')
    (ho : g.opening = f.opening) (ho' : g'.opening = f'.opening) :
    Within parent (g :: fs) (g' :: fs') := by
  cases h with
  | outermost _ hplace => exact .outermost hg (ho'.trans hplace)
  | inner _ hopened hs => exact .inner hg (by rwa [ho, ho']) hs

/-- Frames that have others around them are no group that only the second ones are in. -/
theorem of_outer (h : Within parent (f :: g :: fs) (f' :: fs')) :
    ∃ g' gs', fs' = g' :: gs' ∧ Frame.OpenedAlike f.opening f'.opening ∧
      Within parent (g :: fs) (g' :: gs') := by
  cases h with
  | inner _ hopened hs =>
    cases hs with
    | outermost hf hplace => exact ⟨_, _, rfl, hopened, .outermost hf hplace⟩
    | inner hf ho hs => exact ⟨_, _, rfl, hopened, .inner hf ho hs⟩

end Within

namespace Reader

variable {r r' : Reader} {parent : Frame}

/-- The second reader is in a group inside of `parent` where the first one is not. -/
def WithinReader (parent : Frame) (r r' : Reader) : Prop :=
  Within parent (r.frame :: r.outer) (r'.frame :: r'.outer)

/-- Readers that are ready for the same. -/
theorem ready_within (h : WithinReader parent r r') {f : Frame}
    (hready : r.frame.ready pattern r.position = .ok f) :
    ∃ f', r'.frame.ready pattern' r'.position = .ok f' ∧ f.Alike f' ∧
      Within parent (f :: r.outer) (f' :: r'.outer) := by
  have htracks : Tracks Frame.Alike (r.frame.ready pattern r.position)
      (r'.frame.ready pattern' r'.position) := Frame.ready_alike h.frame
  obtain ⟨f', hready', hf⟩ := htracks f hready
  exact ⟨f', hready', hf, h.withFrame hf (Frame.opening_of_ready hready)
    (Frame.opening_of_ready hready')⟩

theorem stage_within (h : WithinReader parent r r') {stage : Stage}
    (hstage : r.frame.stage? = some stage) :
    ∃ stage', r'.frame.stage? = some stage' ∧ stage.Alike stage' := by
  have hstages := h.frame.stage?
  rw [hstage] at hstages
  generalize r'.frame.stage? = s' at hstages ⊢
  cases hstages with
  | some halike => exact ⟨_, rfl, halike⟩

/-- A quantifier that the atom of the first reader takes is taken by the atom of the second one. -/
theorem quantify_within (h : WithinReader parent r r') {occurs : Extent} {s : Reader}
    (hq : r.quantify pattern stop (.ok occurs) = .ok s) :
    ∃ place atom s', r'.frame.stage? = some (.atom place atom) ∧
      r'.quantify pattern' stop' (.ok occurs) = .ok s' ∧ WithinReader parent s s' := by
  obtain ⟨_, _, e, limited, source, clamps, hstage, he, hlimited, rfl⟩ := of_quantify hq
  obtain rfl := Except.ok.inj he
  obtain ⟨stage', hstage', halike⟩ := stage_within h hstage
  cases halike with
  | atom ht =>
    obtain ⟨_, hlimited', rfl⟩ := limitRepeat_alike ht limited hlimited
    exact ⟨_, _, _, hstage', quantify_eq hstage' hlimited',
      h.withFrame (h.frame.withStage (.repeated ((ht.repeated limited).withSource _ _))) rfl rfl⟩

/-- Frames that are closed hand their trees over to frames around them that are alike. -/
theorem receive_within (h : WithinReader parent r r') {around : Frame} {outer : List Frame}
    (houter : r.outer = around :: outer) {tree tree' : Tree} (halike : tree.Alike tree') :
    ∃ around' outer', r'.outer = around' :: outer' ∧ WithinReader parent
      { r with frame := around.receive pattern stop r.frame.opening tree, outer }
      { r' with frame := around'.receive pattern' stop' r'.frame.opening tree', outer := outer' } := by
  unfold WithinReader at h
  rw [houter] at h
  obtain ⟨around', outer', houter', hopened, houtside⟩ := h.of_outer
  exact ⟨around', outer', houter', houtside.withFrame (houtside.frame.receive hopened halike)
    (Frame.opening_receive _ _ _ _ _) (Frame.opening_receive _ _ _ _ _)⟩

/-- A lexeme that the first reader takes is taken by the second one in the same way. The second
reader has an atom where the first one has, too, and no quantifier that could be made lazy. -/
theorem takes_within (h : WithinReader parent r r') {l : Lexeme} {s : Reader}
    (ht : Takes pattern stop r l s) :
    ∃ s', Takes pattern' stop' r' l s' ∧ WithinReader parent s s' := by
  cases ht with
  | bar hbranch =>
    obtain ⟨branch', hbranch', halike⟩ := Frame.branch_alike h.frame _ hbranch
    refine ⟨_, .bar hbranch', h.withFrame ⟨?_, .nil, .none⟩ rfl rfl⟩
    exact List.rel_append h.frame.branches (.cons halike .nil)
  | close htree houter =>
    obtain ⟨tree', htree', halike⟩ := Frame.tree_alike h.frame _ htree
    obtain ⟨around', outer', houter', hwithin⟩ := receive_within h houter halike
    exact ⟨_, .close htree' houter', hwithin⟩
  | caret hready hfresh =>
    obtain ⟨f', hready', hf, hwithin⟩ := ready_within h hready
    exact ⟨_, .caret hready' (hf.isFresh ▸ hfresh),
      hwithin.withFrame (hf.withTerm Term.alike_fresh) rfl rfl⟩
  | dollar hclosing =>
    obtain ⟨t', hclosing', halike⟩ := Frame.closing_alike h.frame _ hclosing
    refine ⟨_, .dollar hclosing', h.withFrame (h.frame.withTerm ?_) rfl rfl⟩
    exact ⟨halike.caret, halike.behind, .anchored halike.body⟩
  | group hready =>
    obtain ⟨f', hready', hf, hwithin⟩ := ready_within h hready
    exact ⟨_, .group hready', .inner Frame.alike_opened .group
      (hwithin.withFrame (hf.withTerm (hf.termAt _ _)) rfl rfl)⟩
  | lookbehind hready hfresh =>
    obtain ⟨f', hready', hf, hwithin⟩ := ready_within h hready
    exact ⟨_, .lookbehind hready' (hf.isFresh ▸ hfresh), .inner Frame.alike_opened .lookbehind
      (hwithin.withFrame (hf.withTerm (hf.termAt _ _)) rfl rfl)⟩
  | lookahead hclosing =>
    obtain ⟨t', hclosing', halike⟩ := Frame.closing_alike h.frame _ hclosing
    exact ⟨_, .lookahead hclosing', .inner Frame.alike_opened .lookahead
      (h.withFrame (h.frame.withTerm halike) rfl rfl)⟩
  | lazy hstage =>
    obtain ⟨stage', hstage', halike⟩ := stage_within h hstage
    cases halike with
    | repeated ht =>
      exact ⟨_, .lazy hstage',
        h.withFrame (h.frame.withStage (.body (ht.withSource _ _))) rfl rfl⟩
  | optional _ hquantify =>
    obtain ⟨place, atom, s', hstage', hquantify', hwithin⟩ := quantify_within h hquantify
    refine ⟨s', .optional (fun _ _ hrepeated => ?_) hquantify', hwithin⟩
    rw [hstage'] at hrepeated
    cases hrepeated
  | times hquantify =>
    obtain ⟨-, -, s', -, hquantify', hwithin⟩ := quantify_within h hquantify
    exact ⟨s', .times hquantify', hwithin⟩
  | atom hready =>
    obtain ⟨f', hready', hf, hwithin⟩ := ready_within h hready
    exact ⟨_, .atom hready', hwithin.withFrame (hf.addAtom rfl) rfl rfl⟩

/-- Reading a token preserves that the second reader is in a group where the first one is not. -/
theorem step_within (h : WithinReader parent r r') (t : Token) (pattern' : List Char) :
    Tracks (WithinReader parent) (r.step pattern t) (r'.step pattern' t) := by
  intro s hstep
  obtain ⟨taken, htakes, rfl⟩ := of_step hstep
  obtain ⟨taken', htakes', hwithin⟩ := takes_within h htakes
  exact ⟨_, htakes'.step, hwithin⟩

/-- Tokens that can be read can be read inside of a group. -/
theorem run_within (h : WithinReader parent r r') {ts : List Token} {s : Reader}
    (hrun : r.run pattern ts = (s, none)) (pattern' : List Char) :
    ∃ s', r'.run pattern' ts = (s', none) ∧ WithinReader parent s s' := by
  induction ts generalizing r r' with
  | nil => exact ⟨r', rfl, (Prod.mk.inj hrun).1 ▸ h⟩
  | cons t ts ih =>
    obtain ⟨r₁, hstep, hrun⟩ := of_run hrun
    obtain ⟨r₁', hstep', h₁⟩ := step_within h t pattern' r₁ hstep
    obtain ⟨s', hrun', hs⟩ := ih h₁ hrun
    exact ⟨s', by rw [run, hstep']; exact hrun', hs⟩

/-- What can be read is well formed. -/
theorem Takes.isSound {l : Lexeme} (h : Takes pattern stop r l r') : l.IsSound := by
  cases h <;> trivial

theorem isSound_of_run {ts : List Token} (h : r.run pattern ts = (r', none)) :
    ∀ t ∈ ts, t.lexeme.IsSound := by
  induction ts generalizing r with
  | nil => simp
  | cons t ts ih =>
    obtain ⟨r₁, hstep, hrun⟩ := of_run h
    obtain ⟨taken, htakes, -⟩ := of_step hstep
    exact List.forall_mem_cons.mpr ⟨htakes.isSound, ih hrun⟩

theorem run_append {ts us : List Token} (h : r.run pattern ts = (r', none)) :
    r.run pattern (ts ++ us) = r'.run pattern us := by
  induction ts generalizing r with
  | nil => rw [← (Prod.mk.inj h).1]; rfl
  | cons t ts ih =>
    obtain ⟨r₁, hstep, hrun⟩ := of_run h
    rw [List.cons_append, run, hstep]
    exact ih hrun

end Reader

/-! ## A pattern in a group -/

/-- The frame with the term under way read up to the stage. -/
def Frame.bearing (g : Frame) (place : Nat) (stage : Stage) : Frame :=
  { g with term := some { g.termAt place with stage } }

/-- An atom that may occur as often as the quantifier says is given the quantifier. -/
theorem Reader.quantify_bearing {r : Reader} {g : Frame} {place : Nat} {x : Tree} {e : Extent}
    (hframe : r.frame = g.bearing place (.atom position x))
    (hlimit : limitRepeat x.pins e position = .ok e) :
    r.quantify pattern stop (.ok e) = .ok { r with
      frame := g.bearing place
        (.repeated position ((repeated x e).withSource (excerpt pattern position stop))) } := by
  have hstage : r.frame.stage? = some (.atom position x) := by rw [hframe]; rfl
  rw [Reader.quantify_eq hstage hlimit, if_pos rfl, hframe]
  rfl

/-- Without the opening of a lookaround, none is met. -/
theorem Reader.lookaround_of_run {r r' : Reader} {ts : List Token}
    (hts : ∀ t ∈ ts, t.lexeme.isLook = false) (hrun : r.run pattern ts = (r', none))
    (h : r.lookaround = none) : r'.lookaround = none := by
  refine run_induction (P := fun r => r.lookaround = none) (fun r r' t ht hr hstep => ?_) h hrun
  obtain ⟨taken, htakes, rfl⟩ := of_step hstep
  have hlook := htakes.lookaround
  rw [hts t ht, hr] at hlook
  simpa using hlook

/-- The tokens of a group around the pattern. -/
def groupTokens (space : CharSet) (opening pattern : List Char) : List Token :=
  ⟨.group, opening⟩ :: (tokens space pattern ++ [⟨.close, [')']⟩])

/-- What is a pattern when it stands alone is an atom when it stands in a group, in a frame that is
ready for one. -/
theorem run_group {options : Options} {tree : Tree} (h : parse options pattern = .ok tree)
    (text : List Char) {r : Reader} {g : Frame} (houter : r.outer = [])
    (hready : r.frame.ready text r.position = .ok g) (opening : List Char) :
    ∃ r' place x,
      r.run text (groupTokens options.alphabet.space opening pattern) = (r', none) ∧
      r'.outer = [] ∧
      (options.whole = true → r.lookaround = none → r'.lookaround = none) ∧
      r'.frame = g.bearing r.position (.atom place x) ∧ tree.Alike x := by
  obtain ⟨s, hrun, hfinish⟩ := of_parse h
  obtain ⟨htree, houter', hwhole⟩ := Reader.of_finish hfinish
  -- The opening of the group.
  let start := r.position + opening.length
  let parent : Frame := { g with term := some (g.termAt r.position) }
  let inside : Reader :=
    { r with position := start, frame := .opened (.group r.position) start, outer := [parent] }
  have hopen : r.step text ⟨.group, opening⟩ = .ok inside := by
    refine (Reader.Takes.step (.group hready)).trans ?_
    rw [Reader.push, houter]
  -- What is in the group is read as it is read alone.
  have hstart : Reader.WithinReader parent {} inside := .outermost Frame.alike_opened rfl
  obtain ⟨s', hrun', hwithin⟩ := Reader.run_within hstart hrun text
  have htracks : Tracks Tree.Alike (s.frame.tree pattern s.position)
      (s'.frame.tree text s'.position) := Frame.tree_alike hwithin.frame
  obtain ⟨tree', htree', halike⟩ := htracks tree htree
  unfold Reader.WithinReader at hwithin
  rw [houter'] at hwithin
  obtain ⟨hparent, place, hplace⟩ := hwithin.of_outermost
  -- The end of the group.
  let stop := s'.position + 1
  let x := tree'.withSource (excerpt text place stop)
  let closed : Reader :=
    { s' with position := stop, frame := g.bearing r.position (.atom place x), outer := [] }
  have hclose : s'.step text ⟨.close, [')']⟩ = .ok closed := by
    refine (Reader.Takes.step (.close htree' hparent)).trans ?_
    rw [hplace]
    rfl
  refine ⟨closed, place, x, ?_, rfl, fun hw hr => ?_, rfl,
    halike.trans (tree'.unsourced_withSource _).symm⟩
  · rw [groupTokens, Reader.run, hopen]
    refine (Reader.run_append hrun').trans ?_
    rw [Reader.run, hclose]
    rfl
  · have hlook := (Reader.isLook_eq_false_of_run hrun (hwhole hw)).2
    exact (Reader.lookaround_of_run hlook hrun' hr : s'.lookaround = none)

/-! ## The tokens of a group -/

section Grouped

open Grammar (GroupOpening)

variable {options : Options} {t : Tree}

/-- The text of a pattern in a group. -/
def grouped (opening : GroupOpening) (pattern : List Char) : List Char :=
  '(' :: opening.text ++ pattern ++ [')']

/-- A pattern does not begin with a question mark: there would be nothing to repeat. -/
theorem head?_ne_of_parse (h : parse options pattern = .ok t) : pattern.head? ≠ some '?' := by
  obtain ⟨r, hrun, -⟩ := of_parse h
  intro hhead
  obtain ⟨rest, rfl⟩ := List.head?_eq_some_iff.mp hhead
  rw [tokens, Lexeme.read] at hrun
  obtain ⟨r₁, hstep, -⟩ := Reader.of_run hrun
  obtain ⟨taken, htakes, -⟩ := Reader.of_step hstep
  cases htakes with
  | lazy hstage => cases hstage
  | optional _ hquantify =>
    obtain ⟨_, _, _, _, _, _, hstage, -⟩ := Reader.of_quantify hquantify
    cases hstage

/-- The tokens of a group do not depend on the text behind it. -/
theorem tokens_grouped (h : parse options pattern = .ok t) (opening : GroupOpening)
    (rest : List Char) :
    tokens options.alphabet.space (grouped opening pattern ++ rest) =
      groupTokens options.alphabet.space ('(' :: opening.text) pattern ++
        tokens options.alphabet.space rest := by
  obtain ⟨r, hrun, -⟩ := of_parse h
  have hharmless : Harmless (')' :: rest) := by simp [Harmless]
  have hinner := tokens_append (Reader.isSound_of_run hrun) hharmless
  have hclose : tokens options.alphabet.space (')' :: rest) =
      ⟨.close, [')']⟩ :: tokens options.alphabet.space rest := by
    rw [tokens, Lexeme.read]
    rfl
  have hopening : readOpening (opening.text ++ (pattern ++ ')' :: rest)) =
      (.group, opening.text.length) := by
    refine opening.read ?_
    have hhead := head?_ne_of_parse h
    cases pattern with
    | nil => simp
    | cons c pattern => simpa using hhead
  have htext : grouped opening pattern ++ rest =
      '(' :: (opening.text ++ (pattern ++ ')' :: rest)) := by
    simp [grouped]
  rw [htext, tokens, Lexeme.read]
  simp only [hopening, List.take_left, List.drop_left]
  rw [hinner, hclose, groupTokens, List.cons_append, List.append_assoc]
  rfl

/-! ## A pattern between anchors -/

/-- The text of a pattern in a group between anchors. -/
def enclosed (pattern : List Char) : List Char :=
  ['^', '(', '?', ':'] ++ pattern ++ [')', '$']

/-- The tokens of an enclosed pattern are those of the pattern, in a group between anchors. -/
theorem tokens_enclosed (h : parse options pattern = .ok t) :
    tokens options.alphabet.space (enclosed pattern) =
      ⟨.caret, ['^']⟩ ::
        (groupTokens options.alphabet.space ['(', '?', ':'] pattern ++ [⟨.dollar, ['$']⟩]) := by
  have htext : enclosed pattern = '^' :: (grouped .nonCapturing pattern ++ ['$']) := by
    simp [enclosed, grouped, GroupOpening.text]
  have hdollar : tokens options.alphabet.space ['$'] = [⟨.dollar, ['$']⟩] := by
    simp [tokens, Lexeme.read]
  rw [htext, tokens, Lexeme.read]
  simp only [List.take_zero, List.drop_zero]
  rw [tokens_grouped h, hdollar]
  rfl

end Grouped

/-- The term whose atom is the group, read up to this stage. -/
def enclosedTerm (stage : Stage) : Term := { start := 0, caret := true, bodyAt := 1, stage }

/-- The frame that the group is in. -/
def enclosing (stage : Stage) : Frame :=
  { Frame.opened .pattern 0 with term := some (enclosedTerm stage) }

/-- An anchor on each side. -/
theorem pinned_anchors (t : Tree) :
    (t.pinned (.only .front .anchor)).pinned (.only .back .anchor) = t.pinned .both := by
  have hunion : (t.pins.union (.only .front .anchor)).union (.only .back .anchor) =
      t.pins.union .both := by
    simp [Pins.union, Pin.union, Pins.only, Pins.both, Pin.anchor, Pin.free]
  cases t <;> simp [Tree.pinned, Tree.withMark, Tree.mark, Tree.pins] at hunion ⊢ <;> exact hunion

/-- The term between two anchors is the tree inside, pinned at both sides. -/
theorem finish_enclosedTerm {t : Tree} (hlook : ∀ side, (t.pins.on side).byLook = false)
    (position : Nat) (source : String) :
    (enclosedTerm (.anchored position t)).finish source =
      .ok (t.pinned .both) := by
  have hfront : t.pins.front.byLook = false := hlook .front
  have hback : (t.pinned (.only .front .anchor)).pins.back.byLook = false := by
    rw [Tree.pins_pinned]
    exact (Bool.or_false _).trans (hlook .back)
  have hlooked : (enclosedTerm (.anchored position t)).looked source = .ok t := rfl
  rw [← pinned_anchors]
  simp only [Term.finish, bind_eq_ok, check_eq_ok, pure_eq_ok]
  exact ⟨t, hlooked, by simp [hfront], by simpa [enclosedTerm, Term.isAnchored] using hback, rfl⟩

theorem tree_enclosing {t : Tree} (hlook : ∀ side, (t.pins.on side).byLook = false)
    (pattern : List Char) (position position' : Nat) :
    (enclosing (.anchored position' t)).tree pattern position =
      .ok (t.pinned .both) := by
  have hfinish := finish_enclosedTerm hlook position' (excerpt pattern 0 position)
  unfold Frame.tree Frame.branch Frame.endTerm
  simp only [enclosing, bind_eq_ok]
  exact ⟨_, ⟨_, ⟨_, hfinish, rfl⟩, (), rfl, rfl⟩, rfl⟩

/-- The tree of a pattern that stands in a group between anchors. -/
theorem parse_enclosed {options : Options} {tree : Tree} (h : parse options pattern = .ok tree)
    (hlook : ∀ side, (tree.pins.on side).byLook = false) :
    ∃ tree', parse { options with whole := false } (enclosed pattern) = .ok tree' ∧
      tree'.Alike (tree.pinned .both) := by
  let anchored : Reader := { position := 1, frame := enclosing .opened }
  have hcaret : Reader.run (enclosed pattern) {} [⟨.caret, ['^']⟩] = (anchored, none) := rfl
  obtain ⟨closed, place, atom, hgroup, houter, -, hframe, hatom⟩ :=
    run_group h (enclosed pattern) (r := anchored) rfl rfl ['(', '?', ':']
  let stop := closed.position + 1
  let ended : Reader :=
    { closed with position := stop, frame := enclosing (.anchored closed.position atom) }
  have hdollar : closed.step (enclosed pattern) ⟨.dollar, ['$']⟩ = .ok ended := by
    have hclosing : closed.frame.closing closed.position = .ok (enclosedTerm (.body atom)) := by
      rw [hframe]
      rfl
    refine (Reader.Takes.step (.dollar hclosing)).trans ?_
    rw [hframe]
    rfl
  have hrun' : Reader.run (enclosed pattern) {}
      (tokens options.alphabet.space (enclosed pattern)) = (ended, none) := by
    rw [tokens_enclosed h, ← List.singleton_append, Reader.run_append hcaret]
    refine (Reader.run_append hgroup).trans ?_
    rw [Reader.run, hdollar]
    rfl
  have htree := tree_enclosing (hatom.pins ▸ hlook) (enclosed pattern) stop closed.position
  refine ⟨_, ?_, (hatom.pinned _).symm⟩
  unfold parse read
  rw [hrun']
  simp only [Reader.finish, bind_eq_ok]
  exact ⟨_, htree, by rw [show ended.outer = [] from houter]; rfl⟩

end Pattern

end Exemplar
