import Exemplar.Proofs.Matching.Realizes

/-!
# What a frame has read

A frame has read some branches, and of the present alternative some terms and a part of the term
under way. Each of them realizes a matcher, and so does the alternative as far as it has been read.
What an operation of the reader does to a frame, it does to these matchers.

## Main definitions

* `Frame.Follows`: what stands before the body of the term under way
* `Frame.HasBody`: the term under way ends with its body so far
* `Frame.Reads`: the present alternative as far as it has been read

## Main results

* `Frame.Reads.ready`, `Frame.Reads.closing`: before an atom and before an end anchor
* `Frame.Reads.branch`, `Frame.Reads.tree`: the trees that the frame is turned into
-/

namespace Exemplar.Pattern

open Matcher Exemplar.Tree

variable {look : Bool} {pattern : List Char} {position stop : Nat}

/-! ## Lookarounds -/

/-- The matcher of a lookbehind, if there is one. -/
inductive LooksBehind (look : Bool) : Option (Nat × Tree) → Matcher → Prop where
  | none : LooksBehind look none 1
  | some (position : Nat) {tree : Tree} {m : Matcher} : look = true → Realizes look tree m →
    LooksBehind look (some (position, tree)) m.behind

/-- The matcher of a lookahead, if there is one. -/
inductive LooksAhead (look : Bool) : Option (Nat × Tree) → Matcher → Prop where
  | none : LooksAhead look none 1
  | some (position : Nat) {tree : Tree} {m : Matcher} : look = true → Realizes look tree m →
    LooksAhead look (some (position, tree)) m.ahead

variable {part : Option (Nat × Tree)} {m : Matcher}

/-- Looking behind and matching are alike. -/
theorem LooksBehind.alike (h : LooksBehind look part m) : ∃ ms : List Matcher,
    List.Forall₂ (fun part m => Realizes look part.2 m) part.toList ms ∧
      Alike part.isSome false ms.prod m ∧ (look = false → part.isSome = false) := by
  cases h with
  | none => exact ⟨[], .nil, .refl _, fun _ => rfl⟩
  | @some _ tree m hlook hm =>
    refine ⟨[m], .cons hm .nil, ?_, fun h => absurd (h.symm.trans hlook) (by decide)⟩
    rw [List.prod_singleton]
    have hself : Alike false false m m := .refl m
    exact hself.behind

/-- Looking ahead and matching are alike. -/
theorem LooksAhead.alike (h : LooksAhead look part m) : ∃ ms : List Matcher,
    List.Forall₂ (fun part m => Realizes look part.2 m) part.toList ms ∧
      Alike false part.isSome ms.prod m ∧ (look = false → part.isSome = false) := by
  cases h with
  | none => exact ⟨[], .nil, .refl _, fun _ => rfl⟩
  | @some _ tree m hlook hm =>
    refine ⟨[m], .cons hm .nil, ?_, fun h => absurd (h.symm.trans hlook) (by decide)⟩
    rw [List.prod_singleton]
    have hself : Alike false false m m := .refl m
    exact hself.ahead

theorem LooksBehind.mono (h : LooksBehind look part m) {look' : Bool}
    (hl : look = true → look' = true) : LooksBehind look' part m := by
  cases h with
  | none => exact .none
  | some position hlook hm => exact .some position (hl hlook) (hm.mono hl)

/-! ## Terms -/

namespace Term

variable {t : Term} {tree : Tree} {source : String} {front body back b a : Matcher}

/-- The matcher of a start anchor, if there is one. -/
def startMatcher (t : Term) : Matcher := if t.caret then atStart else 1

/-- The matcher of an end anchor, if there is one. -/
def endMatcher (t : Term) : Matcher := if t.isAnchored then atEnd else 1

theorem byLook_front_lookPins : t.lookPins.front.byLook = t.behind.isSome := by
  unfold lookPins
  cases t.behind <;> rfl

theorem byLook_back_lookPins : t.lookPins.back.byLook = t.ahead?.isSome := by
  unfold lookPins
  cases t.ahead? <;> rfl

theorem inAll_lookPins (side : Side) : (t.lookPins.on side).inAll = false := by
  cases side with
  | front =>
    unfold lookPins
    cases t.behind <;> rfl
  | back =>
    unfold lookPins
    cases t.ahead? <;> rfl

/-- A body between lookarounds realizes what they look for around what the body realizes. Only the
parts of lookarounds are at ends that are loose. -/
theorem realizes_looked (hb : LooksBehind look t.behind b) (hbody : Realizes look t.body body)
    (ha : LooksAhead look t.ahead? a) (h : t.looked source = .ok tree) :
    Realizes look tree (b * body * a) := by
  rcases of_looked h with ⟨hnone, hnone', rfl⟩ | ⟨-, hplace, rfl⟩
  · rw [hnone] at hb
    rw [hnone'] at ha
    cases hb
    cases ha
    simpa using hbody
  · obtain ⟨bs, hbs, hbehind, hlb⟩ := hb.alike
    obtain ⟨as, has, hahead, hla⟩ := ha.alike
    have hparts : Realizes look (.ofParts (t.parts.map Prod.snd)) (bs ++ [body] ++ as).prod := by
      refine .ofParts hplace ?_
      exact List.rel_append (List.rel_append hbs (.cons hbody .nil)) has
    have hmatch : Alike t.behind.isSome t.ahead?.isSome (bs ++ [body] ++ as).prod
        (b * body * a) := by
      have hself : Alike false false body body := .refl body
      simpa only [List.prod_append, List.prod_singleton] using (hbehind.mul hself).mul hahead
    refine .withSource ⟨.looked t hparts.built, ?_, ?_⟩ source
    · intro hlook side
      rw [pins_pinned, Pins.on_union, Pin.union, hparts.plain hlook side]
      cases side with
      | front => simp [Pins.on, byLook_front_lookPins, hlb hlook]
      | back => simp [Pins.on, byLook_back_lookPins, hla hlook]
    · rw [spans_pinned fun side => inAll_lookPins side, pins_pinned]
      have halike := hparts.alike.trans hmatch
      rwa [← byLook_front_lookPins, ← byLook_back_lookPins] at halike

/-- The tree of a term realizes what its anchors and lookarounds ask for around its body. -/
theorem realizes_finish (hb : LooksBehind look t.behind b) (hbody : Realizes look t.body body)
    (ha : LooksAhead look t.ahead? a) (h : t.finish source = .ok tree) :
    Realizes look tree (t.startMatcher * b * body * (a * t.endMatcher)) := by
  obtain ⟨inner, hlooked, hcaret, hdollar, rfl⟩ := of_finish h
  have hinner := realizes_looked hb hbody ha hlooked
  have hcareted : Realizes look (t.careted inner) (t.startMatcher * (b * body * a)) := by
    unfold careted startMatcher
    split
    next hc => exact hinner.pinned_front (hcaret hc)
    next => simpa using hinner
  have hdollared : Realizes look (t.dollared (t.careted inner))
      (t.startMatcher * (b * body * a) * t.endMatcher) := by
    unfold dollared endMatcher
    split
    next hd => exact hcareted.pinned_back (hdollar hd)
    next => simpa using hcareted
  simpa only [mul_assoc] using hdollared

end Term

/-! ## Frames -/

namespace Frame

variable {f f' : Frame} {branches : List Matcher} {before body current : Matcher} {u : Tree}

@[simp] theorem caret_termAt (f : Frame) (position : Nat) :
    (f.termAt position).caret = (f.termAt 0).caret := by
  unfold termAt
  cases f.term <;> rfl

@[simp] theorem behind_termAt (f : Frame) (position : Nat) :
    (f.termAt position).behind = (f.termAt 0).behind := by
  unfold termAt
  cases f.term <;> rfl

@[simp] theorem stage_termAt (f : Frame) (position : Nat) :
    (f.termAt position).stage = (f.termAt 0).stage := by
  unfold termAt
  cases f.term <;> rfl

@[simp] theorem body_termAt (f : Frame) (position : Nat) :
    (f.termAt position).body = (f.termAt 0).body := by
  rw [Term.body, Term.body, stage_termAt]

@[simp] theorem isAnchored_termAt (f : Frame) (position : Nat) :
    (f.termAt position).isAnchored = (f.termAt 0).isAnchored := by
  rw [Term.isAnchored, Term.isAnchored, stage_termAt]

@[simp] theorem ahead?_termAt (f : Frame) (position : Nat) :
    (f.termAt position).ahead? = (f.termAt 0).ahead? := by
  rw [Term.ahead?, Term.ahead?, stage_termAt]

/-- What has been read before the body of the term under way. `branches` are the alternatives
before the last bar. -/
structure Follows (look : Bool) (f : Frame) (branches : List Matcher) (before : Matcher) :
    Prop where
  branches : List.Forall₂ (Realizes look) f.branches branches
  before : ∃ ms b, List.Forall₂ (fun part m => Realizes look part.2 m) f.terms ms ∧
    LooksBehind look (f.termAt 0).behind b ∧ before = ms.prod * ((f.termAt 0).startMatcher * b)

/-- What has been read before the body of the term under way, and the body, with nothing behind
it. -/
structure HasBody (look : Bool) (f : Frame) (branches : List Matcher) (before body : Matcher) :
    Prop extends Follows look f branches before where
  body : Realizes look (f.termAt 0).body body
  not_anchored : (f.termAt 0).isAnchored = false
  not_ahead : (f.termAt 0).ahead? = none

/-- What has been read of the present alternative. -/
def Reads (look : Bool) (f : Frame) (branches : List Matcher) (current : Matcher) : Prop :=
  ∃ before body a, f.Follows look branches before ∧ Realizes look (f.termAt 0).body body ∧
    LooksAhead look (f.termAt 0).ahead? a ∧ current = before * body * (a * (f.termAt 0).endMatcher)

theorem Follows.mono (h : f.Follows look branches before) {look' : Bool}
    (hl : look = true → look' = true) : f.Follows look' branches before := by
  obtain ⟨hbranches, ms, b, hms, hb, rfl⟩ := h
  refine ⟨hbranches.imp fun _ _ h => h.mono hl, ms, b, ?_, hb.mono hl, rfl⟩
  exact hms.imp fun _ _ h => h.mono hl

theorem HasBody.mono (h : f.HasBody look branches before body) {look' : Bool}
    (hl : look = true → look' = true) : f.HasBody look' branches before body :=
  ⟨h.toFollows.mono hl, h.body.mono hl, h.not_anchored, h.not_ahead⟩

theorem HasBody.reads (h : f.HasBody look branches before body) :
    f.Reads look branches (before * body) := by
  refine ⟨before, body, 1, h.toFollows, h.body, ?_, ?_⟩
  · rw [h.not_ahead]
    exact .none
  · simp [Term.endMatcher, h.not_anchored]

/-- Before the body of a term there is nothing of it. -/
theorem Follows.reads (h : f.Follows look branches before)
    (hs : (f.termAt 0).stage = .opened) : f.Reads look branches before := by
  have hbody : f.HasBody look branches before 1 := by
    refine ⟨h, ?_, ?_, ?_⟩
    · rw [Term.body, hs]
      exact .empty look
    · rw [Term.isAnchored, hs]
    · rw [Term.ahead?, hs]
  simpa using hbody.reads

theorem follows_opened (look : Bool) (opening : Opening) (start : Nat) :
    (opened opening start).Follows look [] 1 :=
  ⟨.nil, [], 1, .nil, .none, by simp [opened, termAt, Term.startMatcher]⟩

theorem eq_one_of_empty (h : Realizes look .empty body) : body = 1 := by
  have halike : Alike false false Tree.empty.spans body := h.alike
  rw [← halike.eq, spans_empty]

/-- What is begun only where the alternative begins has nothing before it. Neither a term nor an
anchor has been read of it. -/
theorem Follows.eq_one (h : f.Follows look branches before) (hf : f.isFresh = true) :
    before = 1 := by
  obtain ⟨-, ms, b, hms, hb, rfl⟩ := h
  simp only [isFresh, Bool.and_eq_true, List.isEmpty_iff, Option.isNone_iff_eq_none] at hf
  rw [hf.1] at hms
  rw [termAt, hf.2] at hb
  cases hms
  cases hb
  simp [termAt, hf.2, Term.startMatcher]

/-- What stands before a body does not depend on how far the term under way has been read. -/
theorem Follows.congr (h : f.Follows look branches before) (hbranches : f'.branches = f.branches)
    (hterms : f'.terms = f.terms) (hcaret : (f'.termAt 0).caret = (f.termAt 0).caret)
    (hbehind : (f'.termAt 0).behind = (f.termAt 0).behind) : f'.Follows look branches before := by
  obtain ⟨hb, ms, b, hms, hlook, rfl⟩ := h
  refine ⟨hbranches ▸ hb, ms, b, hterms ▸ hms, hbehind ▸ hlook, ?_⟩
  rw [Term.startMatcher, Term.startMatcher, hcaret]

theorem Reads.follows_of_none (h : f.Reads look branches current) (hnone : f.term = none) :
    f.Follows look branches current := by
  obtain ⟨before, body, a, hfollows, hbody, ha, rfl⟩ := h
  rw [termAt, hnone] at ha hbody
  cases ha
  simpa [eq_one_of_empty hbody, termAt, hnone, Term.endMatcher, Term.isAnchored] using hfollows

/-- A term that is finished is one of the parts of the alternative. -/
theorem Reads.finished {t : Term} {source : String} (h : f.Reads look branches current)
    (ht : f.term = some t) (hfinish : t.finish source = .ok u) :
    (f.finished t.start u).Follows look branches current := by
  obtain ⟨before, body, a, ⟨hbranches, ms, b, hms, hb, rfl⟩, hbody, ha, rfl⟩ := h
  have hterm : f.termAt 0 = t := by simp [termAt, ht]
  rw [hterm] at hb hbody ha ⊢
  have hm := Term.realizes_finish hb hbody ha hfinish
  refine ⟨hbranches, ms ++ [_], 1, List.rel_append hms (.cons hm .nil), .none, ?_⟩
  simp [Frame.finished, termAt, Term.startMatcher, mul_assoc]

/-- Finishing the term turns what has been read of it into one of the finished terms. -/
theorem Reads.endTerm (h : f.Reads look branches current)
    (he : f.endTerm pattern position = .ok f') :
    f'.Follows look branches current ∧ f'.term = none := by
  rcases of_endTerm he with ⟨hnone, rfl⟩ | ⟨t, source, tree, ht, hfinish, rfl⟩
  · exact ⟨h.follows_of_none hnone, hnone⟩
  · exact ⟨h.finished ht hfinish, rfl⟩

/-- Where an atom or the beginning of a term can be read, nothing of a body has been. -/
theorem Reads.ready (h : f.Reads look branches current)
    (hr : f.ready pattern position = .ok f') :
    f'.Follows look branches current ∧ (f'.termAt 0).stage = .opened := by
  rcases of_ready hr with ⟨hnone, rfl⟩ | ⟨t, ht, hstage, rfl⟩ |
    ⟨t, source, tree, ht, -, -, hfinish, rfl⟩
  · exact ⟨h.follows_of_none hnone, by simp [termAt, hnone]⟩
  · obtain ⟨before, body, a, hfollows, hbody, ha, rfl⟩ := h
    have hterm : f'.termAt 0 = t := by simp [termAt, ht]
    rw [hterm, Term.body, hstage] at hbody
    rw [hterm, Term.ahead?, hstage] at ha
    cases ha
    refine ⟨?_, by rw [hterm, hstage]⟩
    simpa [eq_one_of_empty hbody, hterm, Term.endMatcher, Term.isAnchored, hstage] using hfollows
  · exact ⟨h.finished ht hfinish, rfl⟩

/-- An atom becomes the body of the term under way. -/
theorem Follows.addAtom (h : f.Follows look branches before) (ht : Realizes look u body) :
    (f.addAtom pattern position stop u).HasBody look branches before body :=
  ⟨h.congr rfl rfl (caret_termAt f position) (behind_termAt f position), ht.withSource _, rfl, rfl⟩

/-- The body of the term under way is read further. -/
theorem HasBody.withStage (h : f.HasBody look branches before body) {stage stage' : Stage}
    {body' : Matcher} (hs : f.stage? = some stage)
    (ht : ∀ t : Term, Realizes look (Term.body { t with stage := stage' }) body' ∧
      Term.isAnchored { t with stage := stage' } = false ∧
      Term.ahead? { t with stage := stage' } = none) :
    (f.withStage stage').HasBody look branches before body' := by
  obtain ⟨t, hterm, rfl⟩ := Option.map_eq_some_iff.mp hs
  have hold : f.termAt 0 = t := by simp [termAt, hterm]
  have hnew : (f.withStage stage').termAt 0 = { t with stage := stage' } := by
    simp [Frame.withStage, termAt, hterm]
  obtain ⟨hbody, hanchored, hahead⟩ := ht t
  rw [← hnew] at hbody hanchored hahead
  exact ⟨h.congr rfl rfl (by rw [hnew, hold]) (by rw [hnew, hold]), hbody, hanchored, hahead⟩

theorem stage_of_stage? {stage : Stage} (h : f.stage? = some stage) :
    (f.termAt 0).stage = stage := by
  obtain ⟨t, ht, rfl⟩ := Option.map_eq_some_iff.mp h
  rw [termAt, ht, Option.getD_some]

theorem stage?_withStage {stage stage' : Stage} (h : f.stage? = some stage) :
    (f.withStage stage').stage? = some stage' := by
  obtain ⟨t, ht, -⟩ := Option.map_eq_some_iff.mp h
  simp [Frame.stage?, Frame.withStage, ht]

/-- A quantifier behind an atom. -/
theorem HasBody.quantified (h : f.HasBody look branches before body) {place : Nat} {atom : Tree}
    {occurs limited : Extent} (hs : f.stage? = some (.atom place atom))
    (ho : occurs.least < unbounded) (hlimited : limitRepeat atom.pins occurs position = .ok limited)
    (source : String) :
    (f.withStage (.repeated place ((repeated atom limited).withSource source))).HasBody look
      branches before (times {n | occurs.Admits n} body) := by
  have hatom := h.body
  rw [Term.body, stage_of_stage? hs] at hatom
  exact h.withStage hs fun _ => ⟨(hatom.repeated ho hlimited).withSource source, rfl, rfl⟩

/-- A question mark behind a quantifier. -/
theorem HasBody.lazy (h : f.HasBody look branches before body) {place : Nat}
    (hs : f.stage? = some (.repeated place u)) (source : String) :
    (f.withStage (.body (u.withSource source))).HasBody look branches before body := by
  have hrepeated := h.body
  rw [Term.body, stage_of_stage? hs] at hrepeated
  exact h.withStage hs fun _ => ⟨hrepeated.withSource source, rfl, rfl⟩

/-- A start anchor, where the alternative begins. -/
theorem Follows.caret (h : f.Follows look branches before) (hf : f.isFresh = true) {t : Term}
    (ht : t.caret = true) (hb : t.behind = none) :
    Follows look { f with term := some t } branches (before * atStart) := by
  rw [h.eq_one hf, one_mul]
  simp only [isFresh, Bool.and_eq_true, List.isEmpty_iff] at hf
  refine ⟨h.branches, [], 1, ?_, ?_, ?_⟩
  · rw [hf.1]
    exact .nil
  · rw [termAt, Option.getD_some, hb]
    exact .none
  · simp [termAt, Term.startMatcher, ht]

/-- A lookbehind, where the alternative begins. -/
theorem Follows.lookbehind (h : f.Follows look branches before) (hf : f.isFresh = true)
    (hlook : look = true) (hm : Realizes look u m) {t : Term} (ht : t.caret = false)
    (hb : t.behind = some (position, u)) :
    Follows look { f with term := some t } branches (before * m.behind) := by
  rw [h.eq_one hf, one_mul]
  simp only [isFresh, Bool.and_eq_true, List.isEmpty_iff] at hf
  refine ⟨h.branches, [], m.behind, ?_, ?_, ?_⟩
  · rw [hf.1]
    exact .nil
  · rw [termAt, Option.getD_some, hb]
    exact .some position hlook hm
  · simp [termAt, Term.startMatcher, ht]

/-- Where an end anchor or a lookahead can be read, nothing has been read behind the body. The stage
changes, but the body stays what it was. -/
theorem Reads.closing {t : Term} (h : f.Reads look branches current)
    (hc : f.closing position = .ok t) : ∃ before body, current = before * body ∧
      HasBody look { f with term := some t } branches before body := by
  obtain ⟨before, body, a, hfollows, hbody, ha, rfl⟩ := h
  obtain ⟨hanchored, hahead, rfl⟩ := of_closing hc
  rw [isAnchored_termAt] at hanchored
  rw [ahead?_termAt] at hahead
  rw [hahead] at ha
  cases ha
  refine ⟨before, body, by simp [Term.endMatcher, hanchored], ?_, ?_, rfl, rfl⟩
  · exact hfollows.congr rfl rfl (caret_termAt f position) (behind_termAt f position)
  · show Realizes look (f.termAt position).body body
    rwa [body_termAt]

/-- An end anchor behind the body. -/
theorem HasBody.dollar (h : f.HasBody look branches before body) :
    Reads look { f with term := some { f.termAt 0 with
      stage := .anchored position (f.termAt 0).body } } branches (before * body * atEnd) := by
  refine ⟨before, body, 1, h.congr rfl rfl rfl rfl, h.body, .none, ?_⟩
  rw [one_mul]
  rfl

/-- A lookahead behind the body. -/
theorem HasBody.lookahead (h : f.HasBody look branches before body) (hlook : look = true)
    (hm : Realizes look u m) :
    (f.receive pattern stop (.lookahead position) u).Reads look branches
      (before * body * m.ahead) := by
  refine ⟨before, body, m.ahead, ?_, ?_, .some position hlook hm, ?_⟩
  · exact h.congr rfl rfl (caret_termAt f position) (behind_termAt f position)
  · have hbody := h.body
    rwa [← body_termAt f position] at hbody
  · rw [show Term.endMatcher _ = 1 from rfl, mul_one]

/-! ### Alternatives -/

/-- The tree of the present alternative realizes what has been read of it. The terms make up the
tree in one of three ways. -/
theorem Reads.branch (h : f.Reads look branches current)
    (hb : f.branch pattern position = .ok u) : Realizes look u current := by
  obtain ⟨f', hend, hplace, hjoined⟩ := of_branch hb
  obtain ⟨⟨-, ms, b, hms, hlook, rfl⟩, hnone⟩ := h.endTerm hend
  rw [termAt, hnone] at hlook
  cases hlook
  have hbefore : ms.prod * ((f'.termAt 0).startMatcher * 1) = ms.prod := by
    simp [termAt, hnone, Term.startMatcher]
  rw [hbefore]
  generalize f'.terms = terms at hplace hjoined hms
  cases hjoined with
  | none =>
    cases hms
    exact .empty look
  | one start =>
    cases hms with
    | cons hm hnil =>
      cases hnil
      simpa using hm
  | many _ text => exact .withSource (.ofParts hplace hms) text

/-- The tree of a frame realizes a choice between all alternatives. -/
theorem Reads.tree (h : f.Reads look branches current) (ht : f.tree pattern position = .ok u) :
    Realizes look u (anyOf (branches ++ [current])) := by
  obtain ⟨before, body, a, hfollows, -⟩ := id h
  have hbranches := hfollows.branches
  obtain ⟨last, hlast, ⟨hnil, rfl⟩ | ⟨-, source, rfl⟩⟩ := of_tree ht
  · rw [hnil] at hbranches
    cases hbranches
    simpa using h.branch hlast
  · exact .withSource (.ofMembers (List.rel_append hbranches (.cons (h.branch hlast) .nil))) source

/-- A bar ends an alternative and begins another one. -/
theorem Reads.bar (h : f.Reads look branches current)
    (hb : f.branch pattern position = .ok u) :
    Follows look
      { f with
        branches := f.branches ++ [u], branchStart := stop, terms := [], term := none }
      (branches ++ [current]) 1 := by
  obtain ⟨before, body, a, hfollows, -⟩ := id h
  refine ⟨List.rel_append hfollows.branches (.cons (h.branch hb) .nil), [], 1, .nil, .none, ?_⟩
  simp [termAt, Term.startMatcher]

end Frame

end Exemplar.Pattern
