import Exemplar.Proofs.Grammar.Lexing
import Exemplar.Proofs.Matching.Frames

/-!
# Reading the text of a syntax tree

Where the text of a syntax tree can be read, the tree of the pattern realizes what the syntax tree
matches. This is proved by induction on the syntax tree: reading the text of a part of it, whatever
has been read before and whatever comes behind it, adds to the present alternative what the part
matches.

## Main definitions

* `Reading`: what reading a text leads to
* `After`: a reader that goes on from another one

## Main results

* `Alternation.reading`: the text of an alternation
* `realizes_of_parse`: the text of a whole pattern
-/

namespace Exemplar.Grammar

open Pattern

/-- Whether a lookaround has been read. -/
def look (r : Reader) : Bool := r.lookaround.isSome

variable {space : CharSet} {pattern : List Char} {r r₁ r₂ : Reader} {branches : List Matcher}
  {current m : Matcher}

/-! ## Readings -/

/-- Where a text can be read from `r` on, together with what comes behind it, what comes behind it
is read from a reader on that satisfies `Q`. -/
def Reading (space : CharSet) (pattern w : List Char) (r : Reader) (Q : Reader → Prop) : Prop :=
  ∀ rest r', r.run pattern (tokens space (w ++ rest)) = (r', none) →
    ∃ r₁, Q r₁ ∧ r₁.run pattern (tokens space rest) = (r', none)

namespace Reading

variable {v w : List Char} {P Q : Reader → Prop}

theorem nil (h : Q r) : Reading space pattern [] r Q :=
  fun _ _ hrun => ⟨r, h, hrun⟩

theorem mono (h : Reading space pattern w r P) (hPQ : ∀ r₁, P r₁ → Q r₁) :
    Reading space pattern w r Q := by
  intro rest r' hrun
  obtain ⟨r₁, hP, hrun⟩ := h rest r' hrun
  exact ⟨r₁, hPQ r₁ hP, hrun⟩

/-- One text behind the other. -/
theorem append (h : Reading space pattern v r P) (h' : ∀ r₁, P r₁ → Reading space pattern w r₁ Q) :
    Reading space pattern (v ++ w) r Q := by
  intro rest r' hrun
  rw [List.append_assoc] at hrun
  obtain ⟨r₁, hP, hrun⟩ := h (w ++ rest) r' hrun
  exact h' r₁ hP rest r' hrun

end Reading

/-- Reading a text whose first lexeme is known is taking this lexeme and reading the rest. -/
theorem run_tokens {first : Char} {more rest : List Char} {lexeme : Lexeme} {n : Nat}
    {r' : Reader} (hread : Lexeme.read space first (more ++ rest) = (lexeme, n))
    (hrun : r.run pattern (tokens space (first :: (more ++ rest))) = (r', none)) :
    ∃ stop taken, r.Takes pattern stop lexeme taken ∧
      Reader.run pattern { taken with position := stop }
        (tokens space ((more ++ rest).drop n)) = (r', none) := by
  rw [tokens, hread] at hrun
  obtain ⟨r₁, hstep, hrun⟩ := Reader.of_run hrun
  obtain ⟨taken, htakes, rfl⟩ := Reader.of_step hstep
  exact ⟨_, taken, htakes, hrun⟩

/-- The text of a lexeme. -/
theorem Reading.token {first : Char} {more : List Char} {Q : Reader → Prop}
    (h : ∀ rest lexeme n stop taken, Lexeme.read space first (more ++ rest) = (lexeme, n) →
      r.Takes pattern stop lexeme taken →
        n = more.length ∧ Q { taken with position := stop }) :
    Reading space pattern (first :: more) r Q := by
  intro rest r' hrun
  cases hread : Lexeme.read space first (more ++ rest) with
  | mk lexeme n =>
    obtain ⟨stop, taken, htakes, hrun⟩ := run_tokens hread hrun
    obtain ⟨rfl, hQ⟩ := h rest lexeme n stop taken hread htakes
    rw [List.drop_left] at hrun
    exact ⟨_, hQ, hrun⟩

/-- The text of a lexeme that is always read as the same. -/
theorem Reading.lexeme {first : Char} {more : List Char} {l : Lexeme} {Q : Reader → Prop}
    (hread : ∀ rest, Lexeme.read space first (more ++ rest) = (l, more.length))
    (h : ∀ stop taken, r.Takes pattern stop l taken → Q { taken with position := stop }) :
    Reading space pattern (first :: more) r Q := by
  apply Reading.token
  intro rest lexeme n stop taken hlexeme htakes
  obtain ⟨rfl, rfl⟩ := Prod.mk.inj ((hread rest).symm.trans hlexeme)
  exact ⟨rfl, h stop taken htakes⟩

/-- The second reader is in the same frame as the first one, further on. -/
structure Continues (r r₁ : Reader) : Prop where
  outer : r₁.outer = r.outer
  opening : r₁.frame.opening = r.frame.opening
  look_of_look : look r = true → look r₁ = true

theorem Continues.refl (r : Reader) : Continues r r := ⟨rfl, rfl, id⟩

theorem Continues.trans (h : Continues r r₁) (h' : Continues r₁ r₂) : Continues r r₂ :=
  ⟨h'.outer.trans h.outer, h'.opening.trans h.opening, h'.look_of_look ∘ h.look_of_look⟩

/-- The second reader goes on from the first one, and has read what matches like this of the
present alternative. -/
structure After (r : Reader) (branches : List Matcher) (current : Matcher) (r₁ : Reader) : Prop
    extends Continues r r₁ where
  reads : r₁.frame.Reads (look r₁) branches current

/-- The second reader goes on from the first one, and has just read a body in a certain stage. -/
structure AfterBody (r : Reader) (branches : List Matcher) (before body : Matcher)
    (stage : Nat → Tree → Stage) (r₁ : Reader) : Prop extends Continues r r₁ where
  hasBody : r₁.frame.HasBody (look r₁) branches before body
  stage_eq : ∃ place tree, r₁.frame.stage? = some (stage place tree)

/-- A part that is read on its own, whatever has been read before. -/
def ReadsAs (space : CharSet) (pattern w : List Char) (m : Matcher) : Prop :=
  ∀ r branches current, r.frame.Reads (look r) branches current →
    Reading space pattern w r (After r branches (current * m))

theorem ReadsAs.nil : ReadsAs space pattern [] 1 := by
  intro r branches current h
  refine .nil ⟨.refl r, ?_⟩
  rwa [mul_one]

/-- Two parts, one behind the other. -/
theorem ReadsAs.append {v w : List Char} {n : Matcher} (hv : ReadsAs space pattern v m)
    (hw : ReadsAs space pattern w n) : ReadsAs space pattern (v ++ w) (m * n) := by
  intro r branches current h
  apply (hv r branches current h).append
  intro r₁ h₁
  apply (hw r₁ branches (current * m) h₁.reads).mono
  intro r₂ h₂
  exact ⟨h₁.toContinues.trans h₂.toContinues, mul_assoc current m n ▸ h₂.reads⟩

/-! ## Symbols and quantifiers -/

/-- A symbol is read as an atom. -/
theorem Symbol.reading (x : Symbol) (h : r.frame.Reads (look r) branches current) :
    Reading space pattern x.text r
      (AfterBody r branches current (.char (x.chars space)) .atom) := by
  obtain ⟨first, more, htext, -, hread⟩ := x.read space
  rw [htext]
  apply Reading.token
  intro rest lexeme n stop taken hlexeme htakes
  rcases hread rest with ⟨cls, hatom, hcls⟩ | ⟨e, k, hbroken⟩
  · rw [hatom] at hlexeme
    obtain ⟨rfl, rfl⟩ := Prod.mk.inj hlexeme
    cases htakes with
    | atom hready =>
      have hatom := Realizes.ofClass (look r) cls
      rw [hcls] at hatom
      have hopening := Frame.opening_of_ready hready
      exact ⟨rfl, ⟨rfl, hopening, id⟩, (h.ready hready).1.addAtom hatom, _, _, rfl⟩
  · rw [hbroken] at hlexeme
    obtain ⟨rfl, -⟩ := Prod.mk.inj hlexeme
    cases htakes

/-- A quantifier behind an atom repeats what the atom matches. -/
theorem quantify_reading {before body : Matcher} {occurs : Extent} {stop : Nat} {taken : Reader}
    (h : r.frame.HasBody (look r) branches before body) (ho : occurs.least < unbounded)
    (hquantify : r.quantify pattern stop (.ok occurs) = .ok taken) :
    AfterBody r branches before (.times {n | occurs.Admits n} body) .repeated
      { taken with position := stop } := by
  obtain ⟨place, atom, e, limited, source, clamps, hstage, he, hlimited, rfl⟩ :=
    Reader.of_quantify hquantify
  obtain rfl := Except.ok.inj he
  exact ⟨⟨rfl, rfl, id⟩, h.quantified hstage ho hlimited source, place, _,
    Frame.stage?_withStage hstage⟩

/-- A quantifier repeats the atom before it. Behind an atom a question mark is a quantifier, and
does not make another one lazy. -/
theorem Quantifier.reading (q : Quantifier) {before body : Matcher}
    (h : r.frame.HasBody (look r) branches before body) {place : Nat} {tree : Tree}
    (hstage : r.frame.stage? = some (.atom place tree)) :
    Reading space pattern q.text r
      (AfterBody r branches before (.times q.counts body) .repeated) := by
  obtain ⟨first, more, htext, hread⟩ := q.read space
  rw [htext]
  apply Reading.token
  intro rest lexeme n stop taken hlexeme htakes
  rcases hread rest with ⟨occurs, hoccurs, hleast, hcounts⟩ | ⟨e, k, hbroken⟩
  · rw [← hcounts]
    rcases hoccurs with htimes | ⟨hquestion, rfl⟩
    · rw [htimes] at hlexeme
      obtain ⟨rfl, rfl⟩ := Prod.mk.inj hlexeme
      cases htakes with
      | times hquantify => exact ⟨rfl, quantify_reading h hleast hquantify⟩
    · rw [hquestion] at hlexeme
      obtain ⟨rfl, rfl⟩ := Prod.mk.inj hlexeme
      cases htakes with
      | lazy hstage' =>
        rw [hstage] at hstage'
        cases hstage'
      | optional _ hquantify => exact ⟨rfl, quantify_reading h hleast hquantify⟩
  · rw [hbroken] at hlexeme
    obtain ⟨rfl, -⟩ := Prod.mk.inj hlexeme
    cases htakes

/-- A question mark behind a quantifier changes nothing. -/
theorem lazy_reading {before body : Matcher} (h : r.frame.HasBody (look r) branches before body)
    {place : Nat} {tree : Tree} (hstage : r.frame.stage? = some (.repeated place tree)) :
    Reading space pattern ['?'] r (After r branches (before * body)) := by
  refine .lexeme (fun _ => rfl) fun stop taken htakes => ?_
  cases htakes with
  | lazy hstage' => exact ⟨⟨rfl, rfl, id⟩, (h.lazy hstage' _).reads⟩
  | optional hne => exact absurd hstage (hne place tree)

/-! ## Anchors -/

/-- The sign of the beginning matches at the beginning. -/
theorem caret_readsAs : ReadsAs space pattern ['^'] .atStart := by
  intro r branches current h
  refine .lexeme (fun _ => rfl) fun stop taken htakes => ?_
  cases htakes with
  | caret hready hfresh =>
    have hopening := Frame.opening_of_ready hready
    refine ⟨⟨rfl, hopening, id⟩, ?_⟩
    have hfollows := (h.ready hready).1.caret hfresh
      (t := { start := r.position, caret := true, bodyAt := stop }) rfl rfl
    exact hfollows.reads rfl

theorem dollar_readsAs : ReadsAs space pattern ['$'] .atEnd := by
  intro r branches current h
  refine .lexeme (fun _ => rfl) fun stop taken htakes => ?_
  cases htakes with
  | dollar hclosing =>
    obtain ⟨before, body, rfl, hbody⟩ := h.closing hclosing
    exact ⟨⟨rfl, rfl, id⟩, hbody.dollar⟩

/-! ## Groups and lookarounds -/

/-- What a whole alternation is read as, from the beginning of an alternative on. -/
def ReadsAll (space : CharSet) (pattern w : List Char) (ms : List Matcher) : Prop :=
  ∀ r branches, r.frame.Reads (look r) branches 1 →
    Reading space pattern w r fun r₁ => ∃ branches' current,
      After r branches' current r₁ ∧ branches' ++ [current] = branches ++ ms

/-- What stands in parentheses is read in a frame of its own, and closing it hands its tree over to
the frame around it. A frame that has been opened begins with an alternative of its own. -/
theorem ReadsAll.closing {w : List Char} {ms : List Matcher} (h : ReadsAll space pattern w ms)
    {opening : Opening} {start : Nat} {parent : Frame} {outer : List Frame}
    (hframe : r.frame = .opened opening start) (houter : r.outer = parent :: outer) :
    Reading space pattern (w ++ [')']) r fun r₁ => ∃ stop tree,
      r₁.frame = parent.receive pattern stop opening tree ∧ r₁.outer = outer ∧
        (look r = true → look r₁ = true) ∧ Realizes (look r₁) tree (.anyOf ms) := by
  have hfresh : r.frame.Reads (look r) [] 1 := by
    rw [hframe]
    exact (Frame.follows_opened (look r) opening start).reads rfl
  refine (h r [] hfresh).append ?_
  rintro r₁ ⟨branches, current, hafter, hms⟩
  refine .lexeme (fun _ => rfl) fun stop taken htakes => ?_
  cases htakes with
  | close htree houter' =>
    rw [hafter.outer, houter, List.cons.injEq] at houter'
    obtain ⟨rfl, rfl⟩ := houter'
    have hopening : r₁.frame.opening = opening := by
      rw [hafter.opening, hframe]
      rfl
    rw [List.nil_append] at hms
    exact ⟨stop, _, by rw [hopening], rfl, hafter.look_of_look, hms ▸ hafter.reads.tree htree⟩

/-- A group is read as an atom. Its opening could be misread only if a question mark came behind
it. -/
theorem group_reading {inner : Alternation} (opening : GroupOpening)
    (hinner : ReadsAll space pattern inner.text (inner.matchers space))
    (hhead : (inner.text ++ [')']).head? ≠ some '?')
    (h : r.frame.Reads (look r) branches current) :
    Reading space pattern ('(' :: opening.text ++ (inner.text ++ [')'])) r
      (AfterBody r branches current (.anyOf (inner.matchers space)) .atom) := by
  intro rest r' hrun
  have hread : Lexeme.read space '(' (opening.text ++ (inner.text ++ [')'] ++ rest)) =
      (.group, opening.text.length) := by
    refine opening.read ?_
    cases htext : inner.text with
    | nil => simp
    | cons c w => simpa [htext] using hhead
  rw [List.append_assoc, List.cons_append] at hrun
  obtain ⟨stop, taken, htakes, hrun⟩ := run_tokens hread hrun
  rw [List.drop_left] at hrun
  cases htakes with
  | @group f hready =>
    have hopening := Frame.opening_of_ready hready
    obtain ⟨r₁, ⟨stop', tree, hframe, houter, hlook, htree⟩, hrun⟩ :=
      hinner.closing rfl rfl rest r' hrun
    refine ⟨r₁, ⟨⟨houter, ?_, hlook⟩, ?_, ?_⟩, hrun⟩
    · rw [hframe]
      exact hopening
    · rw [hframe]
      have hparent : Frame.Follows (look r₁) { f with term := some (f.termAt r.position) }
          branches current :=
        ((h.ready hready).1.mono hlook).congr rfl rfl (f.caret_termAt _) (f.behind_termAt _)
      exact hparent.addAtom htree
    · rw [hframe]
      exact ⟨_, _, rfl⟩

/-- A lookbehind is read as what stands in front of the term that follows. The pattern inside is
known to have been read from its opening on. -/
theorem lookbehind_readsAs {inner : Alternation}
    (hinner : ReadsAll space pattern inner.text (inner.matchers space)) :
    ReadsAs space pattern (Front.lookbehind inner).text
      (.behind (.anyOf (inner.matchers space))) := by
  intro r branches current h
  have hopened : Reading space pattern ['(', '?', '<', '='] r fun r₁ =>
      look r₁ = true ∧ ∃ f position stop, r.frame.ready pattern position = .ok f ∧
        f.isFresh = true ∧ r₁.frame = .opened (.lookbehind position) stop ∧
          r₁.outer = { f with term := some (f.termAt position) } :: r.outer := by
    refine .lexeme (fun _ => rfl) fun stop taken htakes => ?_
    cases htakes with
    | lookbehind hready hfresh => exact ⟨rfl, _, r.position, stop, hready, hfresh, rfl, rfl⟩
  apply hopened.append
  intro r₁ h₁
  obtain ⟨hlook₁, f, position, stop, hready, hfresh, hframe, houter⟩ := h₁
  apply (hinner.closing hframe houter).mono
  intro r₂ h₂
  obtain ⟨stop', tree, hframe₂, houter₂, hlook₂, htree⟩ := h₂
  have hlook : look r₂ = true := hlook₂ hlook₁
  have hfollows := ((h.ready hready).1.mono fun _ => hlook).lookbehind hfresh hlook htree
    (t := { start := position, behind := some (position, tree), bodyAt := stop' }) rfl rfl
  refine ⟨⟨houter₂, ?_, fun _ => hlook⟩, ?_⟩
  · have hopening : f.opening = r.frame.opening := Frame.opening_of_ready hready
    rw [hframe₂]
    exact hopening
  · rw [hframe₂]
    exact hfollows.reads rfl

/-- A lookahead matches in front of what the pattern inside matches. -/
theorem lookahead_readsAs {inner : Alternation}
    (hinner : ReadsAll space pattern inner.text (inner.matchers space)) :
    ReadsAs space pattern (Back.lookahead inner).text
      (.ahead (.anyOf (inner.matchers space))) := by
  intro r branches current h
  have hopened : Reading space pattern ['(', '?', '='] r fun r₁ =>
      look r₁ = true ∧ ∃ t position stop, r.frame.closing position = .ok t ∧
        r₁.frame = .opened (.lookahead position) stop ∧
          r₁.outer = { r.frame with term := some t } :: r.outer := by
    refine .lexeme (fun _ => rfl) fun stop taken htakes => ?_
    cases htakes with
    | lookahead hclosing => exact ⟨rfl, _, r.position, stop, hclosing, rfl, rfl⟩
  apply hopened.append
  intro r₁ h₁
  obtain ⟨hlook₁, t, position, stop, hclosing, hframe, houter⟩ := h₁
  apply (hinner.closing hframe houter).mono
  intro r₂ h₂
  obtain ⟨stop', tree, hframe₂, houter₂, hlook₂, htree⟩ := h₂
  have hlook : look r₂ = true := hlook₂ hlook₁
  obtain ⟨before, body, rfl, hbody⟩ := h.closing hclosing
  refine ⟨⟨houter₂, ?_, fun _ => hlook⟩, ?_⟩
  · rw [hframe₂]
    rfl
  · rw [hframe₂]
    exact (hbody.mono fun _ => hlook).lookahead hlook htree

/-! ## Syntax trees -/

/-- A bar between two parts of an alternation. The bar closes the alternative, and the next one
begins with nothing read of it. -/
theorem bar_readsAll {v w : List Char} {ms : List Matcher} (hv : ReadsAs space pattern v m)
    (hw : ReadsAll space pattern w ms) : ReadsAll space pattern (v ++ '|' :: w) (m :: ms) := by
  intro r branches h
  apply (hv r branches 1 h).append
  intro r₁ h₁
  have hbar : Reading space pattern ['|'] r₁ (After r (branches ++ [m]) 1) := by
    refine .lexeme (fun _ => rfl) fun stop taken htakes => ?_
    cases htakes with
    | bar hbranch =>
      have hreads := h₁.reads
      rw [one_mul] at hreads
      exact ⟨⟨h₁.outer, h₁.opening, h₁.look_of_look⟩, (hreads.bar hbranch).reads rfl⟩
  refine (hbar.append fun r₂ h₂ => (hw r₂ (branches ++ [m]) h₂.reads).mono ?_)
  rintro r₃ ⟨branches', current, h₃, hms⟩
  refine ⟨branches', current, ⟨h₂.toContinues.trans h₃.toContinues, h₃.reads⟩, ?_⟩
  rw [hms, List.append_assoc, List.singleton_append]

/-- The text does not begin with a question mark, which would make it a part of the opening of a
group. -/
def Unquestioned (w : List Char) : Prop := w.head? ≠ some '?'

theorem Unquestioned.append {v w : List Char} (hv : Unquestioned v) (hw : Unquestioned w) :
    Unquestioned (v ++ w) := by
  cases v with
  | nil => exact hw
  | cons c v => exact hv

theorem Atom.text_eq_cons (x : Atom) : ∃ first more, x.text = first :: more ∧ first ≠ '?' := by
  cases x with
  | symbol x =>
    obtain ⟨first, more, htext, hfirst, -⟩ := x.read .empty
    exact ⟨first, more, htext, hfirst⟩
  | group opening inner => exact ⟨'(', _, rfl, by decide⟩

/-- No body begins with a question mark, so none is mistaken for a quantifier. -/
theorem Body.unquestioned (b : Body) : Unquestioned b.text := by
  cases b with
  | none => simp [Unquestioned, Body.text]
  | once atom =>
    obtain ⟨first, more, htext, hfirst⟩ := atom.text_eq_cons
    simpa [Unquestioned, Body.text, htext] using hfirst
  | repeated atom quantifier isLazy =>
    obtain ⟨first, more, htext, hfirst⟩ := atom.text_eq_cons
    simpa [Unquestioned, Body.text, htext] using hfirst

theorem Term.unquestioned (t : Term) : Unquestioned t.text := by
  obtain ⟨front, body, back⟩ := t
  have hfront : Unquestioned front.text := by
    cases front <;> simp [Unquestioned, Front.text]
  have hback : Unquestioned back.text := by
    cases back <;> simp [Unquestioned, Back.text]
  exact hfront.append (body.unquestioned.append hback)

theorem Branch.unquestioned : (b : Branch) → Unquestioned b.text
  | .nil => by simp [Unquestioned, Branch.text]
  | .cons term rest => term.unquestioned.append rest.unquestioned

theorem Alternation.unquestioned (a : Alternation) : Unquestioned (a.text ++ [')']) := by
  cases a with
  | one branch => exact branch.unquestioned.append (by simp [Unquestioned])
  | bar branch more =>
    rw [Alternation.text, List.append_assoc]
    exact branch.unquestioned.append (by simp [Unquestioned])

/-- A body without a quantifier. -/
theorem once_readsAs {w : List Char}
    (h : ∀ r branches current, r.frame.Reads (look r) branches current →
      Reading space pattern w r (AfterBody r branches current m .atom)) :
    ReadsAs space pattern w m := by
  intro r branches current hr
  exact (h r branches current hr).mono fun r₁ h₁ => ⟨h₁.toContinues, h₁.hasBody.reads⟩

/-- A body with a quantifier. It comes directly behind the atom, so it is the atom that it
repeats. -/
theorem repeated_readsAs {w : List Char} (quantifier : Quantifier) (isLazy : Bool)
    (h : ∀ r branches current, r.frame.Reads (look r) branches current →
      Reading space pattern w r (AfterBody r branches current m .atom)) :
    ReadsAs space pattern (w ++ (quantifier.text ++ if isLazy then ['?'] else []))
      (.times quantifier.counts m) := by
  intro r branches current hr
  apply (h r branches current hr).append
  intro r₁ h₁
  obtain ⟨place, atom, hatom⟩ := h₁.stage_eq
  apply (quantifier.reading h₁.hasBody hatom).append
  intro r₂ h₂
  have hcontinues := h₁.toContinues.trans h₂.toContinues
  cases isLazy with
  | false => exact .nil ⟨hcontinues, h₂.hasBody.reads⟩
  | true =>
    obtain ⟨place', tree, htree⟩ := h₂.stage_eq
    apply (lazy_reading h₂.hasBody htree).mono
    intro r₃ h₃
    exact ⟨hcontinues.trans h₃.toContinues, h₃.reads⟩

mutual

/-- The text of an alternation. -/
theorem Alternation.reading : (a : Alternation) →
    ReadsAll space pattern a.text (a.matchers space)
  | .one branch => by
    intro r branches h
    refine (branch.reading r branches 1 h).mono fun r₁ h₁ => ⟨branches, _, h₁, ?_⟩
    rw [one_mul]
    rfl
  | .bar branch more => bar_readsAll branch.reading more.reading

/-- The text of a branch. -/
theorem Branch.reading : (b : Branch) → ReadsAs space pattern b.text (b.matcher space)
  | .nil => .nil
  | .cons term rest => term.reading.append rest.reading

/-- The text of a term. -/
theorem Term.reading : (t : Term) → ReadsAs space pattern t.text (t.matcher space)
  | .mk front body back => front.reading.append (body.reading.append back.reading)

/-- The text of what holds a body at the front. -/
theorem Front.reading : (f : Front) → ReadsAs space pattern f.text (f.matcher space)
  | .none => .nil
  | .caret => caret_readsAs
  | .lookbehind inner => lookbehind_readsAs inner.reading

/-- The text of what holds a body at the back. -/
theorem Back.reading : (b : Back) → ReadsAs space pattern b.text (b.matcher space)
  | .none => .nil
  | .dollar => dollar_readsAs
  | .lookahead inner => lookahead_readsAs inner.reading

/-- The text of a body. -/
theorem Body.reading : (b : Body) → ReadsAs space pattern b.text (b.matcher space)
  | .none => .nil
  | .once atom => once_readsAs fun _ _ _ h => atom.reading h
  | .repeated atom quantifier isLazy =>
    repeated_readsAs quantifier isLazy fun _ _ _ h => atom.reading h

/-- The text of an atom. -/
theorem Atom.reading {r : Reader} {branches : List Matcher} {current : Matcher} :
    (x : Atom) → r.frame.Reads (look r) branches current →
      Reading space pattern x.text r (AfterBody r branches current (x.matcher space) .atom)
  | .symbol x, h => x.reading h
  | .group opening inner, h => group_reading opening inner.reading inner.unquestioned h

end

/-- The tree of a pattern realizes what its syntax tree matches. Where the whole string has to
match, no lookaround is in it. -/
theorem realizes_of_parse {options : Options} (a : Alternation) {t : Tree}
    (h : parse options a.text = .ok t) :
    ∃ look, Realizes look t (a.matcher options.alphabet.space) ∧
      (options.whole = true → look = false) := by
  obtain ⟨r', hrun, hfinish⟩ := of_parse h
  obtain ⟨htree, -, hwhole⟩ := Reader.of_finish hfinish
  have hopened : Frame.Reads (look {}) (.opened .pattern 0) [] 1 :=
    (Frame.follows_opened _ .pattern 0).reads rfl
  rw [← List.append_nil a.text] at hrun
  obtain ⟨r₁, ⟨branches, current, hafter, hms⟩, hrun⟩ := a.reading {} [] hopened [] r' hrun
  obtain rfl : r₁ = r' := by
    rw [tokens] at hrun
    exact (Prod.mk.inj hrun).1
  refine ⟨look r₁, ?_, ?_⟩
  · rw [List.nil_append] at hms
    rw [Alternation.matcher, ← hms]
    exact hafter.reads.tree htree
  · intro h
    rw [look, hwhole h]
    rfl

end Exemplar.Grammar
