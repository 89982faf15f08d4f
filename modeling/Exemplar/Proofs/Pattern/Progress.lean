import Exemplar.Proofs.Pattern.Position

/-!
# Reading goes forward

Every token either is refused or takes the reader forward, by as many characters as the token has,
and keeps the positions that the reader holds in order. So a term that is finished has some text, a
group or a lookaround begins behind the beginning of everything around it, every excerpt is a piece
of the text, and what is wrong with a text is met inside it or at its end.

## Main definitions

* `Reader.sliceStarts`: where the excerpts begin that a reader takes
* `Reader.GoesForward`: what a reader does with a token
* `LoopsAdvance`: the loops that lexemes are read by go forward

## Main results

* `Reader.take_congr`, `Reader.finish_congr`: no other excerpts are taken
* `Reader.goesForward_of_run`: what a reader does with each token of a text
* `parse_goes_forward`: every text is read to its end, or something is wrong inside it
-/

namespace Exemplar.Pattern

variable {pattern pattern' : List Char} {position stop : Nat} {e : Error}

/-! ## Excerpts -/

/-- Where the excerpts begin that are taken for a frame. -/
def Frame.sliceStarts (f : Frame) : List Nat :=
  f.start :: f.branchStart :: f.term.toList.flatMap fun t => t.start :: t.stage.position?.toList

/-- Where the excerpts begin that a reader takes. -/
def Reader.sliceStarts (r : Reader) : List Nat :=
  r.position :: r.frame.opening.position :: r.frame.sliceStarts

theorem Reader.InOrder.le_of_mem_sliceStarts {r : Reader} (h : r.InOrder) :
    ∀ s ∈ r.sliceStarts, s ≤ r.position := by
  have hframe := h.nested.inOrder
  have hstart := hframe.start_le.trans hframe.branchStart_le
  simp only [Reader.sliceStarts, Frame.sliceStarts, List.forall_mem_cons, List.forall_mem_flatMap,
    Option.mem_toList]
  exact ⟨le_rfl, hframe.opening_le.trans hstart, hstart, hframe.branchStart_le,
    fun t ht => ⟨(hframe.term t ht).start_le, fun p hp => (hframe.term t ht).stage_le p hp⟩⟩

/-- Both texts have the same excerpts from each of these places up to the position. -/
def AgreeUpTo (pattern pattern' : List Char) (starts : List Nat) (stop : Nat) : Prop :=
  ∀ s ∈ starts, excerpt pattern' s stop = excerpt pattern s stop

namespace Frame

variable {f : Frame}

theorem mem_sliceStarts_of_stage {stage : Stage} (h : f.stage? = some stage) {p : Nat}
    (hp : stage.position? = some p) : p ∈ f.sliceStarts := by
  obtain ⟨t, hterm, rfl⟩ := Option.map_eq_some_iff.mp h
  simp [sliceStarts, hterm, hp]

theorem endTerm_congr (h : AgreeUpTo pattern pattern' f.sliceStarts position) :
    f.endTerm pattern' position = f.endTerm pattern position := by
  unfold endTerm
  split
  next => rfl
  next t hterm => rw [h t.start (by simp [sliceStarts, hterm])]

theorem ready_congr (h : AgreeUpTo pattern pattern' f.sliceStarts position) :
    f.ready pattern' position = f.ready pattern position := by
  unfold ready
  rw [endTerm_congr h]

/-- Alternatives end in the same way in two texts that agree up to there. Ending a term leaves the
beginning of the alternative where it was. -/
theorem branch_congr (h : AgreeUpTo pattern pattern' f.sliceStarts position) :
    f.branch pattern' position = f.branch pattern position := by
  unfold branch
  rw [endTerm_congr h]
  cases hend : f.endTerm pattern position with
  | error e => rfl
  | ok f' =>
    have hstart : f'.branchStart = f.branchStart := by
      rcases of_endTerm hend with ⟨-, rfl⟩ | ⟨t, source, tree, -, -, rfl⟩ <;> rfl
    have hbranch := h f.branchStart (by simp [sliceStarts])
    rw [← hstart] at hbranch
    simp only [bind, Except.bind, hbranch]

theorem tree_congr (h : AgreeUpTo pattern pattern' f.sliceStarts position) :
    f.tree pattern' position = f.tree pattern position := by
  unfold Frame.tree
  rw [branch_congr h, h f.start (by simp [sliceStarts])]

end Frame

namespace Reader

variable {r r' : Reader}

theorem quantify_congr (h : AgreeUpTo pattern pattern' r.frame.sliceStarts r.position)
    (hstop : AgreeUpTo pattern pattern' r.frame.sliceStarts stop)
    (occurs : Except Error Extent) :
    r.quantify pattern' stop occurs = r.quantify pattern stop occurs := by
  unfold Reader.quantify
  split
  next place atom hstage => rw [hstop place (Frame.mem_sliceStarts_of_stage hstage rfl)]
  next => rw [Frame.ready_congr h]

/-- A lexeme is read with no other excerpts than those that begin where the reader says, and end
where the lexeme begins or where it ends. Of what a frame receives, only a group has an excerpt:
from its opening to here. -/
theorem take_congr (h : AgreeUpTo pattern pattern' r.sliceStarts r.position)
    (hstop : AgreeUpTo pattern pattern' r.sliceStarts stop) (l : Lexeme) :
    r.take pattern' stop l = r.take pattern stop l := by
  have hframe : ∀ s ∈ r.frame.sliceStarts, s ∈ r.sliceStarts := fun s hs => by
    simp [Reader.sliceStarts, hs]
  have hposition : AgreeUpTo pattern pattern' r.frame.sliceStarts r.position :=
    fun s hs => h s (hframe s hs)
  have hend : AgreeUpTo pattern pattern' r.frame.sliceStarts stop :=
    fun s hs => hstop s (hframe s hs)
  have hready := Frame.ready_congr hposition
  cases l with
  | bar => rw [Reader.take, Reader.take, Frame.branch_congr hposition]
  | close =>
    have hreceive : ∀ (parent : Frame) (tree : Tree),
        parent.receive pattern' stop r.frame.opening tree =
          parent.receive pattern stop r.frame.opening tree := by
      intro parent tree
      cases hopening : r.frame.opening with
      | group place =>
        have := hstop place (by simp [Reader.sliceStarts, hopening, Opening.position])
        rw [Frame.receive, Frame.receive, Frame.addAtom, Frame.addAtom, this]
      | pattern | lookbehind | lookahead => rfl
    simp only [Reader.take, Reader.close, Frame.tree_congr hposition, hreceive]
  | caret | group | lookbehind | negativeLookbehind | broken => simp only [Reader.take, hready]
  | dollar | lookahead | negativeLookahead => rfl
  | question =>
    rw [Reader.take, Reader.take, Reader.question, Reader.question, quantify_congr hposition hend]
    split
    next place tree hstage => rw [hend place (Frame.mem_sliceStarts_of_stage hstage rfl)]
    next => rfl
  | times | brokenTimes => exact quantify_congr hposition hend _
  | atom =>
    have := hstop r.position (by simp [Reader.sliceStarts])
    simp only [Reader.take, hready, Frame.addAtom, this]

theorem finish_congr (h : AgreeUpTo pattern pattern' r.sliceStarts r.position) (whole : Bool) :
    r.finish pattern' whole = r.finish pattern whole := by
  rw [Reader.finish, Reader.finish, Frame.tree_congr fun s hs => h s (by
    simp [Reader.sliceStarts, hs])]

/-! ## Runs -/

theorem inOrder_start : ({} : Reader).InOrder where
  nested := .outermost rfl (Frame.inOrder_opened le_rfl)
  start_lt _ ht := by cases ht
  lookaround_le _ hp := by cases hp

/-- Tokens that are read take the reader to the end of the last one. -/
theorem InOrder.run (h : r.InOrder) {ts : List Token} (hts : ∀ t ∈ ts, t.text ≠ [])
    (hrun : r.run pattern ts = (r', none)) :
    r'.position = r.position + (ts.flatMap Token.text).length ∧ r'.InOrder := by
  induction ts generalizing r with
  | nil =>
    obtain rfl := (Prod.mk.inj hrun).1
    exact ⟨rfl, h⟩
  | cons t ts ih =>
    rw [List.forall_mem_cons] at hts
    obtain ⟨r₁, hstep, hrun⟩ := of_run hrun
    obtain ⟨hposition, horder⟩ := h.step hts.1 hstep
    obtain ⟨hposition', horder'⟩ := ih horder hts.2 hrun
    refine ⟨?_, horder'⟩
    rw [hposition', hposition, List.flatMap_cons, List.length_append, Nat.add_assoc]

/-- Where reading stops, a token is refused. -/
theorem of_run_error {ts : List Token} (hrun : r.run pattern ts = (r', some e)) :
    ∃ before t after, ts = before ++ t :: after ∧ r.run pattern before = (r', none) ∧
      r'.step pattern t = .error e := by
  induction ts generalizing r with
  | nil => cases hrun
  | cons t ts ih =>
    rw [run] at hrun
    cases hstep : r.step pattern t with
    | error e' =>
      rw [hstep] at hrun
      obtain ⟨rfl, he⟩ := Prod.mk.inj hrun
      obtain rfl := Option.some.inj he
      exact ⟨[], t, ts, rfl, rfl, hstep⟩
    | ok r₁ =>
      rw [hstep] at hrun
      obtain ⟨before, u, after, rfl, hbefore, hu⟩ := ih hrun
      refine ⟨t :: before, u, after, rfl, ?_, hu⟩
      rw [run, hstep]
      exact hbefore

/-- What a reader does with the token that begins at its position. -/
structure GoesForward (pattern : List Char) (r : Reader) (t : Token) : Prop where
  /-- Every term that has been read has some text, and so has the term under way. -/
  inOrder : r.InOrder
  /-- A group or a lookaround begins behind the beginning of all that is around it. -/
  start_lt : ∀ f ∈ r.outer, f.start < r.frame.start
  /-- The token is a piece of the text, and not empty. -/
  lt_stop : r.position < r.position + t.text.length
  stop_le : r.position + t.text.length ≤ pattern.length
  /-- The token is refused inside the text, or else the reader goes to its end. -/
  refused_or_read : (∃ e, r.step pattern t = .error e ∧ e.position ≤ pattern.length) ∨
    ∃ r', r.step pattern t = .ok r' ∧ r'.position = r.position + t.text.length ∧ r'.InOrder
  /-- All excerpts begin in what has been read, and end there or at the end of the token. -/
  sliceStart_le : ∀ s ∈ r.sliceStarts, s ≤ r.position
  step_eq : ∀ pattern', AgreeUpTo pattern pattern' r.sliceStarts r.position →
    AgreeUpTo pattern pattern' r.sliceStarts (r.position + t.text.length) →
    r.step pattern' t = r.step pattern t

/-- The token behind those that have been read is refused or takes the reader forward. -/
theorem goesForward_of_run {space : CharSet} {before after : List Token} {t : Token}
    (htokens : tokens space pattern = before ++ t :: after)
    (hrun : Reader.run pattern {} before = (r, none)) : r.GoesForward pattern t := by
  have hfit := fit_tokens space pattern
  have hlength := congrArg List.length (tokens_flatMap_text space pattern)
  rw [htokens] at hfit hlength
  rw [List.flatMap_append, List.flatMap_cons, List.length_append, List.length_append] at hlength
  obtain ⟨hbefore, ht, herror, -⟩ := hfit.of_append
  obtain ⟨hposition, horder⟩ := inOrder_start.run hbefore hrun
  rw [Nat.zero_add] at hposition
  have hstop : r.position + t.text.length ≤ pattern.length := by omega
  refine
    { inOrder := horder
      start_lt := horder.nested.start_lt
      lt_stop := Nat.lt_add_of_pos_right (List.length_pos_iff.mpr ht)
      stop_le := hstop
      refused_or_read := ?_
      sliceStart_le := horder.le_of_mem_sliceStarts
      step_eq := fun pattern' h h' => ?_ }
  · cases hstep : r.step pattern t with
    | ok r' => exact .inr ⟨r', rfl, horder.step ht hstep⟩
    | error e =>
      refine .inl ⟨e, rfl, horder.position_le_of_step (by omega) (fun e' he' => ?_) hstep⟩
      have := herror e' he'
      omega
  · rw [Reader.step, Reader.step, take_congr h h']

end Reader

/-! ## Reading a text -/

/-- The loops that lexemes are read by take a character in each round, and no more characters than
there are. -/
structure LoopsAdvance (space : CharSet) : Prop where
  lexeme : ∀ c rest, (Lexeme.read space c rest).2 ≤ rest.length
  items : ∀ {c}, c ≠ ']' → ∀ offset rest,
    (∃ e, Bracket.readItems space offset (c :: rest) = .error e) ∨
      ∃ item taken, 0 < taken ∧ taken ≤ (c :: rest).length ∧
        Bracket.readItems space offset (c :: rest) =
          (Bracket.readItems space (offset + taken) ((c :: rest).drop taken)).map
            fun (items, stop) => (item :: items, stop)
  decimal : ∀ {offset rest value taken}, readDecimal offset rest = .ok (value, taken) →
    taken = (rest.takeWhile Char.isDigit).length ∧ 0 < taken ∧ taken ≤ rest.length
  name : ∀ rest, nameLength rest ≤ rest.length

theorem loopsAdvance (space : CharSet) : LoopsAdvance space where
  lexeme := Lexeme.taken_le_length space
  items hc _ _ := readItems_cons hc
  decimal := taken_of_readDecimal
  name := nameLength_le

/-- Every text is read to its end and is a pattern, or something is wrong with it at a position in
the text or at its end. There are no more tokens than characters. Before every token that is
reached, what has been read is in order, and the token is refused or takes the reader forward. At
the end of the text the reader has read all of it, and takes no excerpts but from it. -/
theorem parse_goes_forward (options : Options) (pattern : List Char) :
    ((∃ tree, parse options pattern = .ok tree) ∨
      ∃ e, parse options pattern = .error e ∧ e.position ≤ pattern.length) ∧
    (tokens options.alphabet.space pattern).length ≤ pattern.length ∧
    (∀ before t after r, tokens options.alphabet.space pattern = before ++ t :: after →
      Reader.run pattern {} before = (r, none) → r.GoesForward pattern t) ∧
    (∀ tree, parse options pattern = .ok tree → ∃ r,
      Reader.run pattern {} (tokens options.alphabet.space pattern) = (r, none) ∧
        r.finish pattern options.whole = .ok tree ∧ r.position = pattern.length) ∧
    (∀ r, Reader.run pattern {} (tokens options.alphabet.space pattern) = (r, none) →
      r.InOrder ∧ (∀ s ∈ r.sliceStarts, s ≤ pattern.length) ∧
        ∀ pattern', AgreeUpTo pattern pattern' r.sliceStarts pattern.length →
          r.finish pattern' options.whole = r.finish pattern options.whole) ∧
    LoopsAdvance options.alphabet.space := by
  have hfit := fit_tokens options.alphabet.space pattern
  have hend : ∀ {r}, Reader.run pattern {} (tokens options.alphabet.space pattern) = (r, none) →
      r.position = pattern.length ∧ r.InOrder := by
    intro r hrun
    obtain ⟨hposition, horder⟩ := Reader.inOrder_start.run hfit.text_ne_nil hrun
    rw [tokens_flatMap_text, Nat.zero_add] at hposition
    exact ⟨hposition, horder⟩
  refine ⟨?_, ?_, fun before t after r => Reader.goesForward_of_run, ?_, ?_,
    loopsAdvance options.alphabet.space⟩
  · cases hparse : parse options pattern with
    | ok tree => exact .inl ⟨tree, rfl⟩
    | error e =>
      refine .inr ⟨e, rfl, ?_⟩
      unfold parse read at hparse
      split at hparse
      next r e' hrun =>
        -- Some token is refused, and what comes before it is read.
        obtain rfl := Except.error.inj hparse
        obtain ⟨before, t, after, htokens, hbefore, hstep⟩ := Reader.of_run_error hrun
        rcases (Reader.goesForward_of_run htokens hbefore).refused_or_read with
          ⟨e'', he'', hle⟩ | ⟨r', hr', -⟩
        · obtain rfl := Except.error.inj (hstep.symm.trans he'')
          exact hle
        · rw [hstep] at hr'
          cases hr'
      next r hrun =>
        -- All tokens are read, so only what is still open can be wrong.
        obtain ⟨hposition, horder⟩ := hend hrun
        exact hposition ▸ horder.position_le_of_finish hparse
  · have hle := hfit.length_le
    rwa [tokens_flatMap_text] at hle
  · intro tree hparse
    obtain ⟨r, hrun, hfinish⟩ := of_parse hparse
    exact ⟨r, hrun, hfinish, (hend hrun).1⟩
  · intro r hrun
    obtain ⟨hposition, horder⟩ := hend hrun
    rw [← hposition]
    exact ⟨horder, horder.le_of_mem_sliceStarts, fun _ h => Reader.finish_congr h _⟩

/-- A quantifier without end: the reader goes forward up to it, and what is wrong with it is met at
the end of the text. -/
theorem parse_goes_forward_unfinished :
    ∃ before r, Reader.run "(a\x7b2".toList {} before = (r, none) ∧ before.length = 2 ∧
      r.GoesForward "(a\x7b2".toList ⟨.brokenTimes ⟨.quantifierSeparator, 2⟩, ['{']⟩ ∧
      ∃ e, parse {} "(a\x7b2".toList = .error e ∧ e.position ≤ 4 := by
  obtain ⟨hresult, -, hforward, -, -, -⟩ := parse_goes_forward {} "(a\x7b2".toList
  have htokens : tokens (Options.alphabet {}).space "(a\x7b2".toList =
      [⟨.group, ['(']⟩, ⟨.atom (.literal 'a'), ['a']⟩] ++
        ⟨.brokenTimes ⟨.quantifierSeparator, 2⟩, ['{']⟩ :: [⟨.atom (.literal '2'), ['2']⟩] := by
    decide +kernel
  have hrun : (Reader.run "(a\x7b2".toList {}
      [⟨.group, ['(']⟩, ⟨.atom (.literal 'a'), ['a']⟩]).2 = none := by decide +kernel
  have hrefused : (parse {} "(a\x7b2".toList).toBool = false := by decide +kernel
  refine ⟨_, _, Prod.ext rfl hrun, rfl, hforward _ _ _ _ htokens (Prod.ext rfl hrun), ?_⟩
  rcases hresult with ⟨tree, htree⟩ | hresult
  · rw [htree] at hrefused
    cases hrefused
  · exact hresult

end Exemplar.Pattern
