import Exemplar.Proofs.Pattern.Cover
import Exemplar.Proofs.Pattern.Steps

/-!
# Positions in order

The positions that a reader holds are in order: a frame begins behind the opening that it was opened
by, its terms begin one behind the other, and all of them lie before the position that has been
reached. A token that is read keeps them in order and takes the reader to its end.

## Main definitions

* `Frame.Holds`, `Frame.InOrder`: the positions of a term and of a frame
* `Nested`: each frame is opened inside the one around it
* `Reader.InOrder`: the positions that a reader holds are in order

## Main results

* `Nested.start_lt`: a frame begins behind all frames around it
* `Reader.InOrder.step`: a token that is read keeps the positions in order
-/

namespace Exemplar.Pattern

variable {pattern : List Char} {position stop : Nat}

/-! ## Positions in order -/

/-- The position that a stage holds. -/
def Stage.position? : Stage → Option Nat
  | .opened | .body _ => none
  | .atom p _ | .repeated p _ | .anchored p _ | .ahead p _ _ => some p

namespace Frame

/-- A term begins behind the finished terms of the alternative, and what it holds lies up to
`stop`. -/
structure Holds (f : Frame) (t : Term) (stop : Nat) : Prop where
  branchStart_le : f.branchStart ≤ t.start
  lt_start : ∀ part ∈ f.terms, part.1 < t.start
  start_le : t.start ≤ stop
  bodyAt_le : t.bodyAt ≤ stop
  behind_le : ∀ part ∈ t.behind, part.1 ≤ stop
  stage_le : ∀ p ∈ t.stage.position?, p ≤ stop

/-- The positions that a frame holds are in order and lie up to `stop`. A finished term begins
behind the one before it and before `stop`, where it has ended. -/
structure InOrder (f : Frame) (stop : Nat) : Prop where
  opening_le : f.opening.position ≤ f.start
  start_le : f.start ≤ f.branchStart
  branchStart_le : f.branchStart ≤ stop
  branchStart_le_of_mem : ∀ part ∈ f.terms, f.branchStart ≤ part.1
  lt_stop : ∀ part ∈ f.terms, part.1 < stop
  terms_lt : (f.terms.map Prod.fst).Pairwise (· < ·)
  term : ∀ t ∈ f.term, f.Holds t stop

end Frame

/-- A frame between others: each one is opened inside the one around it and begins behind its
opening. -/
inductive Nested : (stop : Nat) → Frame → List Frame → Prop where
  | outermost {stop : Nat} {f : Frame} : f.opening = .pattern → f.InOrder stop → Nested stop f []
  | inside {stop : Nat} {f parent : Frame} {outer : List Frame} :
    f.opening.position < f.start → f.InOrder stop → Nested f.opening.position parent outer →
    Nested stop f (parent :: outer)

/-- The positions in a frame and the frames around it are in order up to the position that has been
reached, and so is the position of the first lookaround. The term under way has some text. -/
structure Ordered (position : Nat) (f : Frame) (outer : List Frame) (lookaround : Option Nat) :
    Prop where
  nested : Nested position f outer
  start_lt : ∀ t ∈ f.term, t.start < position
  lookaround_le : ∀ p ∈ lookaround, p ≤ position

/-- The positions that a reader holds are in order. -/
def Reader.InOrder (r : Reader) : Prop := Ordered r.position r.frame r.outer r.lookaround

namespace Frame

variable {f f' : Frame} {t : Term}

theorem Holds.mono (h : f.Holds t position) (hle : position ≤ stop) : f.Holds t stop where
  branchStart_le := h.branchStart_le
  lt_start := h.lt_start
  start_le := h.start_le.trans hle
  bodyAt_le := h.bodyAt_le.trans hle
  behind_le part hpart := (h.behind_le part hpart).trans hle
  stage_le p hp := (h.stage_le p hp).trans hle

theorem Holds.withStage (h : f.Holds t stop) {stage : Stage}
    (hstage : ∀ p ∈ stage.position?, p ≤ stop) : f.Holds { t with stage } stop :=
  { h with stage_le := hstage }

theorem InOrder.mono (h : f.InOrder position) (hle : position ≤ stop) : f.InOrder stop :=
  { h with
    branchStart_le := h.branchStart_le.trans hle
    lt_stop := fun part hpart => (h.lt_stop part hpart).trans_le hle
    term := fun t ht => (h.term t ht).mono hle }

/-- Another term under way. -/
theorem InOrder.withTerm (h : f.InOrder stop) (ht : f.Holds t stop) :
    { f with term := some t }.InOrder stop :=
  { h with
    term := fun u hu => by
      obtain rfl := Option.some.inj hu
      exact { ht with } }

/-- A term that begins here, with no atom yet. -/
theorem InOrder.holds_begun (h : f.InOrder position) (hle : position ≤ stop) {caret : Bool}
    {behind : Option (Nat × Tree)} (hbehind : ∀ part ∈ behind, part.1 ≤ stop) {bodyAt : Nat}
    (hbody : bodyAt ≤ stop) : f.Holds { start := position, caret, behind, bodyAt } stop where
  branchStart_le := h.branchStart_le
  lt_start := h.lt_stop
  start_le := hle
  bodyAt_le := hbody
  behind_le := hbehind
  stage_le _ hp := by cases hp

/-- The term under way, or one that begins here. -/
theorem InOrder.termAt (h : f.InOrder stop) : f.Holds (f.termAt stop) stop := by
  unfold Frame.termAt
  cases hterm : f.term with
  | some t => exact h.term t hterm
  | none => exact h.holds_begun le_rfl (fun _ hpart => by cases hpart) le_rfl

/-- The frame of an opening is in order at the end of the opening. -/
theorem inOrder_opened {opening : Opening} (h : opening.position ≤ stop) :
    (opened opening stop).InOrder stop where
  opening_le := h
  start_le := le_rfl
  branchStart_le := le_rfl
  branchStart_le_of_mem _ hpart := by cases hpart
  lt_stop _ hpart := by cases hpart
  terms_lt := .nil
  term _ ht := by cases ht

/-- A finished term is added to those before it. -/
theorem InOrder.finished (h : f.InOrder stop) (ht : f.Holds t stop) (hlt : t.start < stop)
    (tree : Tree) : (f.finished t.start tree).InOrder stop where
  opening_le := h.opening_le
  start_le := h.start_le
  branchStart_le := h.branchStart_le
  branchStart_le_of_mem part hpart := by
    rcases List.mem_append.mp hpart with hpart | hpart
    · exact h.branchStart_le_of_mem part hpart
    · rw [List.mem_singleton.mp hpart]
      exact ht.branchStart_le
  lt_stop part hpart := by
    rcases List.mem_append.mp hpart with hpart | hpart
    · exact h.lt_stop part hpart
    · rw [List.mem_singleton.mp hpart]
      exact hlt
  terms_lt := by
    rw [Frame.finished, List.map_append, List.pairwise_append]
    refine ⟨h.terms_lt, List.pairwise_singleton _ _, fun a ha b hb => ?_⟩
    obtain ⟨part, hpart, rfl⟩ := List.mem_map.mp ha
    rw [List.mem_singleton.mp hb]
    exact ht.lt_start part hpart
  term _ ht := by cases ht

/-- The frame stays in order when it is made ready for what begins a term. A term that is left under
way has some text already. -/
theorem InOrder.ready (h : f.InOrder position) (hlt : ∀ t ∈ f.term, t.start < position)
    (hready : f.ready pattern position = .ok f') :
    f'.InOrder position ∧ f'.start = f.start ∧ ∀ t ∈ f'.term, t.start < position := by
  rcases of_ready hready with ⟨-, rfl⟩ | ⟨t, -, -, rfl⟩ | ⟨t, source, tree, hterm, -, -, -, rfl⟩
  · exact ⟨h, rfl, hlt⟩
  · exact ⟨h, rfl, hlt⟩
  · exact ⟨h.finished (h.term t hterm) (hlt t hterm) tree, rfl, fun u hu => by cases hu⟩

/-- The term under way is complete but for what ends it. -/
theorem InOrder.closing (h : f.InOrder position) (hclosing : f.closing position = .ok t) :
    f.Holds t position := by
  obtain ⟨-, -, rfl⟩ := of_closing hclosing
  exact h.termAt.withStage fun p hp => by cases hp

/-- What a frame receives lies behind what it holds already. A lookbehind begins a term at its
opening; what else is received belongs to the term there. -/
theorem InOrder.receive {opening : Opening} (h : f.InOrder opening.position)
    (hlt : opening.position < stop) (tree : Tree) :
    (f.receive pattern stop opening tree).InOrder stop ∧
      (f.receive pattern stop opening tree).opening = f.opening ∧
      (f.receive pattern stop opening tree).start = f.start ∧
      ∀ t ∈ (f.receive pattern stop opening tree).term, t.start < stop := by
  have hmono := h.mono hlt.le
  have hterm := h.termAt
  cases opening with
  | pattern => exact ⟨hmono, rfl, rfl, fun t ht => (h.term t ht).start_le.trans_lt hlt⟩
  | group place =>
    refine ⟨hmono.withTerm ((hterm.mono hlt.le).withStage fun p hp => ?_), rfl, rfl, fun t ht => ?_⟩
    · obtain rfl := Option.some.inj hp
      exact hlt.le
    · obtain rfl := Option.some.inj ht
      exact hterm.start_le.trans_lt hlt
  | lookbehind place =>
    refine ⟨hmono.withTerm (h.holds_begun hlt.le (fun part hpart => ?_) le_rfl), rfl, rfl,
      fun t ht => ?_⟩
    · obtain rfl := Option.some.inj hpart
      exact hlt.le
    · obtain rfl := Option.some.inj ht
      exact hlt
  | lookahead place =>
    refine ⟨hmono.withTerm ((hterm.mono hlt.le).withStage fun p hp => ?_), rfl, rfl, fun t ht => ?_⟩
    · obtain rfl := Option.some.inj hp
      exact hlt.le
    · obtain rfl := Option.some.inj ht
      exact hterm.start_le.trans_lt hlt

end Frame

section Nested

variable {f f' : Frame} {outer : List Frame}

theorem Nested.inOrder (h : Nested position f outer) : f.InOrder position := by
  cases h with
  | outermost _ h => exact h
  | inside _ h _ => exact h

/-- Another frame with the same opening in its place. -/
theorem Nested.withFrame (h : Nested position f outer) (hf : f'.InOrder stop)
    (hopening : f'.opening = f.opening) (hstart : f'.start = f.start) : Nested stop f' outer := by
  cases h with
  | outermost hpattern _ => exact .outermost (hopening.trans hpattern) hf
  | inside hlt _ houter =>
    rw [← hopening] at houter
    exact .inside (by rw [hopening, hstart]; exact hlt) hf houter

/-- A frame begins behind all frames around it. -/
theorem Nested.start_lt (h : Nested position f outer) : ∀ g ∈ outer, g.start < f.start := by
  induction h with
  | outermost => simp
  | inside hlt _ houter ih =>
    have hparent := houter.inOrder
    have hstart := (hparent.start_le.trans hparent.branchStart_le).trans_lt hlt
    exact List.forall_mem_cons.mpr ⟨hstart, fun g hg => (ih g hg).trans hstart⟩

end Nested

/-! ## A token that is read -/

section Ordered

variable {f f' : Frame} {outer : List Frame} {lookaround : Option Nat}

/-- Another frame in the place of the innermost one. -/
theorem Ordered.withFrame (h : Ordered position f outer lookaround) (hlt : position < stop)
    (hf : f'.InOrder stop) (hopening : f'.opening = f.opening) (hstart : f'.start = f.start)
    (hterm : ∀ t ∈ f'.term, t.start < stop) : Ordered stop f' outer lookaround where
  nested := h.nested.withFrame hf hopening hstart
  start_lt := hterm
  lookaround_le p hp := (h.lookaround_le p hp).trans hlt.le

/-- Another term under way. -/
theorem Ordered.withTerm (h : Ordered position f outer lookaround) (hlt : position < stop)
    (hf : f'.InOrder position) (hopening : f'.opening = f.opening) (hstart : f'.start = f.start)
    {t : Term} (ht : f'.Holds t stop) (hterm : t.start < stop) :
    Ordered stop { f' with term := some t } outer lookaround := by
  refine h.withFrame hlt ((hf.mono hlt.le).withTerm ht) hopening hstart fun u hu => ?_
  obtain rfl := Option.some.inj hu
  exact hterm

/-- A frame that is opened inside another one. -/
theorem Ordered.push (h : Ordered position f outer lookaround) (hlt : position < stop)
    (hf : f'.InOrder position) (hopening : f'.opening = f.opening) (hstart : f'.start = f.start)
    {opening : Opening} (hposition : opening.position = position) {lookaround' : Option Nat}
    (hlook : ∀ p ∈ lookaround', p ≤ position) :
    Ordered stop (.opened opening stop) (f' :: outer) lookaround' where
  nested := by
    subst hposition
    exact .inside hlt (Frame.inOrder_opened hlt.le) (h.nested.withFrame hf hopening hstart)
  start_lt _ ht := by cases ht
  lookaround_le p hp := (hlook p hp).trans hlt.le

/-- The position of the first lookaround, when another one begins here. -/
theorem Ordered.getD_lookaround_le (h : Ordered position f outer lookaround) :
    ∀ p ∈ some (lookaround.getD position), p ≤ position := by
  intro p hp
  obtain rfl := Option.some.inj hp
  cases lookaround with
  | none => exact le_rfl
  | some p => exact h.lookaround_le p rfl

theorem Ordered.stage_le (h : Ordered position f outer lookaround) {stage : Stage}
    (hstage : f.stage? = some stage) : ∀ p ∈ stage.position?, p ≤ position := by
  obtain ⟨t, hterm, rfl⟩ := Option.map_eq_some_iff.mp hstage
  exact (h.nested.inOrder.term t hterm).stage_le

/-- The term under way read further. -/
theorem Ordered.withStage (h : Ordered position f outer lookaround) (hlt : position < stop)
    {stage stage' : Stage} (hf : f.stage? = some stage)
    (hstage : ∀ p ∈ stage'.position?, p ≤ position) :
    Ordered stop (f.withStage stage') outer lookaround := by
  obtain ⟨t, hterm, -⟩ := Option.map_eq_some_iff.mp hf
  have hframe := h.nested.inOrder
  have ht := hframe.term t hterm
  rw [Frame.withStage, hterm]
  exact h.withTerm hlt hframe rfl rfl ((ht.withStage hstage).mono hlt.le)
    (ht.start_le.trans_lt hlt)

end Ordered

namespace Reader

variable {r r' : Reader}

theorem InOrder.quantify (h : r.InOrder) (hlt : r.position < stop) {occurs : Except Error Extent}
    (hr : r.quantify pattern stop occurs = .ok r') :
    Ordered stop r'.frame r'.outer r'.lookaround := by
  obtain ⟨place, atom, e, limited, source, clamps, hstage, -, -, rfl⟩ := of_quantify hr
  have hplace := h.stage_le hstage
  exact h.withStage hlt hstage hplace

/-- The next alternative begins behind the bar. -/
theorem InOrder.bar (h : r.InOrder) (hlt : r.position < stop) (branches : List Tree) :
    Ordered stop { r.frame with branches, branchStart := stop, terms := [], term := none } r.outer
      r.lookaround := by
  have hframe := h.nested.inOrder
  refine h.withFrame hlt ?_ rfl rfl fun t ht => by cases ht
  exact
    { opening_le := hframe.opening_le
      start_le := (hframe.start_le.trans hframe.branchStart_le).trans hlt.le
      branchStart_le := le_rfl
      branchStart_le_of_mem := fun _ hpart => by cases hpart
      lt_stop := fun _ hpart => by cases hpart
      terms_lt := .nil
      term := fun t ht => by cases ht }

/-- The frame around a frame that is closed has waited since the opening, which lies behind all that
it holds. -/
theorem InOrder.close (h : r.InOrder) (hlt : r.position < stop) {parent : Frame}
    {outer : List Frame} (houter : r.outer = parent :: outer) (tree : Tree) :
    Ordered stop (parent.receive pattern stop r.frame.opening tree) outer r.lookaround := by
  have hnested := h.nested
  have hframe := hnested.inOrder
  rw [houter] at hnested
  cases hnested with
  | inside hbehind _ hparent =>
    have hopening : r.frame.opening.position < stop :=
      hbehind.trans_le ((hframe.start_le.trans hframe.branchStart_le).trans hlt.le)
    obtain ⟨horder, hsame, hstart, hterm⟩ := hparent.inOrder.receive hopening tree
    exact ⟨hparent.withFrame horder hsame hstart, hterm,
      fun p hp => (h.lookaround_le p hp).trans hlt.le⟩

/-- A lexeme that is read keeps the positions in order, up to its end. The frame around a group
waits with a term under way, which may begin with the group. -/
theorem InOrder.takes (h : r.InOrder) (hlt : r.position < stop) {l : Lexeme}
    (htakes : Takes pattern stop r l r') : Ordered stop r'.frame r'.outer r'.lookaround := by
  have hframe := h.nested.inOrder
  cases htakes with
  | bar => exact h.bar hlt _
  | close _ houter => exact h.close hlt houter _
  | caret hready =>
    obtain ⟨hf, hstart, -⟩ := hframe.ready h.start_lt hready
    exact h.withTerm hlt hf (Frame.opening_of_ready hready) hstart
      (hf.holds_begun hlt.le (fun _ hpart => by cases hpart) le_rfl) hlt
  | dollar hclosing =>
    have ht := hframe.closing hclosing
    refine h.withTerm hlt hframe rfl rfl ((ht.withStage fun p hp => ?_).mono hlt.le)
      (ht.start_le.trans_lt hlt)
    obtain rfl := Option.some.inj hp
    exact le_rfl
  | group hready =>
    obtain ⟨hf, hstart, -⟩ := hframe.ready h.start_lt hready
    have hopening := Frame.opening_of_ready hready
    exact h.push hlt (hf.withTerm hf.termAt) hopening hstart rfl h.lookaround_le
  | lookbehind hready =>
    obtain ⟨hf, hstart, -⟩ := hframe.ready h.start_lt hready
    have hopening := Frame.opening_of_ready hready
    exact h.push hlt (hf.withTerm hf.termAt) hopening hstart rfl h.getD_lookaround_le
  | lookahead hclosing =>
    exact h.push hlt (hframe.withTerm (hframe.closing hclosing)) rfl rfl rfl h.getD_lookaround_le
  | lazy hstage => exact h.withStage hlt hstage fun p hp => by cases hp
  | optional _ hquantify => exact h.quantify hlt hquantify
  | times hquantify => exact h.quantify hlt hquantify
  | atom hready =>
    obtain ⟨hf, hstart, -⟩ := hframe.ready h.start_lt hready
    refine h.withTerm hlt hf (Frame.opening_of_ready hready) hstart
      ((hf.termAt.withStage fun p hp => ?_).mono hlt.le) (hf.termAt.start_le.trans_lt hlt)
    obtain rfl := Option.some.inj hp
    exact le_rfl

/-- A token that is read takes the reader to its end and keeps the positions in order. -/
theorem InOrder.step (h : r.InOrder) {t : Token} (ht : t.text ≠ [])
    (hstep : r.step pattern t = .ok r') :
    r'.position = r.position + t.text.length ∧ r'.InOrder := by
  obtain ⟨taken, htakes, rfl⟩ := of_step hstep
  have hlt : r.position < r.position + t.text.length :=
    Nat.lt_add_of_pos_right (List.length_pos_iff.mpr ht)
  have horder := h.takes hlt htakes
  exact ⟨rfl, horder⟩

end Reader

end Exemplar.Pattern
