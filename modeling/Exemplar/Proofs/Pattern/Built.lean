import Exemplar.Proofs.Pattern.Steps

/-!
# Trees that reading builds

Reading puts trees together in few ways only, and never without the checks on what is pinned. A
property that is preserved by all of them holds of every tree that is read. Most properties are
proved by induction on how trees have been built.

## Main definitions

* `Closed`: properties of trees that reading preserves
* `Reader.All`: all trees in the frames of a reader have a property
* `Built`: trees that are put together as reading does it

## Main results

* `Reader.All.step`: reading a token preserves properties that are closed
* `Closed.of_parse`: the tree of a pattern has such a property
* `built_of_parse`: the tree of a pattern has been built
-/

namespace Exemplar.Pattern

/-- A property that holds of all trees that are put together as reading does it, with all its checks
passed: from classes with the property `classes`, and from lookarounds only if there are `looks`. -/
structure Closed (classes : CharClass → Prop) (looks : Prop) (P : Tree → Prop) : Prop where
  ofClass : ∀ {cls : CharClass}, classes cls → P (.ofClass cls)
  empty : P .empty
  withSource : ∀ {tree : Tree} (source : String), P tree → P (tree.withSource source)
  /-- Parts of which only the first is held at the front and only the last at the back. -/
  ofParts : ∀ {parts : List (Nat × Tree)}, checkPlacement true parts = .ok () →
    (∀ part ∈ parts, P part.2) → P (.ofParts (parts.map Prod.snd))
  ofMembers : ∀ {members : List Tree}, 2 ≤ members.length → (∀ tree ∈ members, P tree) →
    P (.ofMembers members)
  /-- An atom with a quantifier, which is reduced where the atom is pinned. -/
  repeated : ∀ {atom : Tree} {occurs limited : Extent} {position : Nat}, P atom →
    occurs.least < unbounded → limitRepeat atom.pins occurs position = .ok limited →
    P (repeated atom limited)
  /-- A term with lookarounds. -/
  looked : ∀ {tree : Tree} (t : Term), looks → P tree → P (tree.pinned t.lookPins)
  /-- A term with an anchor, on a side that no lookaround holds. -/
  anchored : ∀ {tree : Tree} (side : Side), P tree → (tree.pins.on side).byLook = false →
    P (tree.pinned (.only side .anchor))

/-- Two properties at once. -/
theorem Closed.and {classes : CharClass → Prop} {looks : Prop} {P Q : Tree → Prop}
    (hP : Closed classes looks P) (hQ : Closed classes looks Q) :
    Closed classes looks fun t => P t ∧ Q t where
  ofClass h := ⟨hP.ofClass h, hQ.ofClass h⟩
  empty := ⟨hP.empty, hQ.empty⟩
  withSource source h := ⟨hP.withSource source h.1, hQ.withSource source h.2⟩
  ofParts hplace h := ⟨hP.ofParts hplace fun part hpart => (h part hpart).1,
    hQ.ofParts hplace fun part hpart => (h part hpart).2⟩
  ofMembers hlength h := ⟨hP.ofMembers hlength fun t ht => (h t ht).1,
    hQ.ofMembers hlength fun t ht => (h t ht).2⟩
  repeated h hleast hlimit := ⟨hP.repeated h.1 hleast hlimit, hQ.repeated h.2 hleast hlimit⟩
  looked t hlooks h := ⟨hP.looked t hlooks h.1, hQ.looked t hlooks h.2⟩
  anchored side h hlook := ⟨hP.anchored side h.1 hlook, hQ.anchored side h.2 hlook⟩

section All

variable {classes : CharClass → Prop} {looks : Prop} {P : Tree → Prop}

/-! ## Terms and frames -/

/-- All trees of the term have the property `P`, and there are lookarounds only if there are
`looks`. -/
structure Term.All (looks : Prop) (P : Tree → Prop) (t : Term) : Prop where
  behind : ∀ part ∈ t.behind, looks ∧ P part.2
  body : P t.body
  ahead : ∀ part ∈ t.ahead?, looks ∧ P part.2

namespace Term

variable {t : Term}

theorem all_fresh (hP : Closed classes looks P) {start bodyAt : Nat} {caret : Bool} :
    All looks P { start, caret, bodyAt } := by
  refine ⟨?_, hP.empty, ?_⟩ <;> simp [ahead?]

theorem All.parts (h : t.All looks P) : ∀ part ∈ t.parts, P part.2 := by
  intro part hpart
  simp only [Term.parts, List.append_assoc, List.mem_append, Option.mem_toList,
    List.mem_singleton] at hpart
  rcases hpart with hpart | rfl | hpart
  · exact (h.behind part hpart).2
  · exact h.body
  · exact (h.ahead part hpart).2

/-- What is read between two lookarounds has the property. -/
theorem All.looked (h : t.All looks P) (hP : Closed classes looks P) {source : String} {tree : Tree}
    (ht : t.looked source = .ok tree) : P tree := by
  rcases of_looked ht with ⟨-, -, rfl⟩ | ⟨hlook, hplace, rfl⟩
  · exact h.body
  · have hlooks : looks := by
      rcases hlook with hbehind | hahead
      · obtain ⟨part, hpart⟩ := Option.isSome_iff_exists.mp hbehind
        exact (h.behind part hpart).1
      · obtain ⟨part, hpart⟩ := Option.isSome_iff_exists.mp hahead
        exact (h.ahead part hpart).1
    exact hP.withSource source (hP.looked t hlooks (hP.ofParts hplace h.parts))

/-- A term that is finished has the property. -/
theorem All.finish (h : t.All looks P) (hP : Closed classes looks P) {source : String} {tree : Tree}
    (ht : t.finish source = .ok tree) : P tree := by
  obtain ⟨inner, hlooked, hcaret, hdollar, rfl⟩ := of_finish ht
  have hinner := h.looked hP hlooked
  have hcareted : P (t.careted inner) := by
    unfold careted
    split
    next hc => exact hP.anchored .front hinner (hcaret hc)
    next => exact hinner
  unfold dollared
  split
  next hd => exact hP.anchored .back hcareted (hdollar hd)
  next => exact hcareted

end Term

/-- All trees of the frame have the property `P`, and there are lookarounds only if there are
`looks`. -/
structure Frame.All (looks : Prop) (P : Tree → Prop) (f : Frame) : Prop where
  branches : ∀ tree ∈ f.branches, P tree
  terms : ∀ part ∈ f.terms, P part.2
  term : ∀ t ∈ f.term, t.All looks P
  opening : f.opening.isLook = true → looks

namespace Frame

variable {f f' : Frame} {pattern : List Char} {position stop : Nat} {u : Tree}

theorem all_opened {opening : Opening} (h : opening.isLook = true → looks) (start : Nat) :
    (opened opening start).All looks P := by
  refine ⟨?_, ?_, ?_, h⟩ <;> simp [opened]

theorem All.termAt (h : f.All looks P) (hP : Closed classes looks P) (position : Nat) :
    (f.termAt position).All looks P := by
  unfold Frame.termAt
  cases ht : f.term with
  | none => exact Term.all_fresh hP
  | some t => exact h.term t ht

theorem All.withTerm (h : f.All looks P) {t : Term} (ht : t.All looks P) :
    All looks P { f with term := some t } :=
  ⟨h.branches, h.terms, fun _ h => Option.some.inj h ▸ ht, h.opening⟩

theorem All.finished (h : f.All looks P) (start : Nat) (ht : P u) :
    (f.finished start u).All looks P := by
  refine ⟨h.branches, fun part hpart => ?_, nofun, h.opening⟩
  rcases List.mem_append.mp hpart with hpart | hpart
  · exact h.terms part hpart
  · rw [List.mem_singleton.mp hpart]
    exact ht

theorem All.endTerm (h : f.All looks P) (hP : Closed classes looks P)
    (he : f.endTerm pattern position = .ok f') : f'.All looks P := by
  rcases of_endTerm he with ⟨-, rfl⟩ | ⟨t, source, tree, ht, hfinish, rfl⟩
  · exact h
  · exact h.finished _ ((h.term t ht).finish hP hfinish)

theorem All.ready (h : f.All looks P) (hP : Closed classes looks P)
    (hr : f.ready pattern position = .ok f') : f'.All looks P := by
  rcases of_ready hr with ⟨-, rfl⟩ | ⟨t, ht, hstage, rfl⟩ |
    ⟨t, source, tree, ht, -, -, hfinish, rfl⟩
  · exact h
  · exact h
  · exact h.finished _ ((h.term t ht).finish hP hfinish)

theorem All.closing (h : f.All looks P) (hP : Closed classes looks P) {t : Term}
    (hc : f.closing position = .ok t) : t.All looks P := by
  obtain ⟨-, -, rfl⟩ := of_closing hc
  have := h.termAt hP position
  exact ⟨this.behind, this.body, nofun⟩

/-- An alternative that is finished has the property. -/
theorem All.branch (h : f.All looks P) (hP : Closed classes looks P)
    (hb : f.branch pattern position = .ok u) : P u := by
  obtain ⟨f', hend, hplace, hjoined⟩ := of_branch hb
  have hterms := (h.endTerm hP hend).terms
  generalize f'.terms = terms at hplace hjoined hterms
  cases hjoined with
  | none => exact hP.empty
  | one start => exact hterms _ List.mem_cons_self
  | many source => exact hP.withSource _ (hP.ofParts hplace hterms)

/-- The tree of a frame has the property. -/
theorem All.tree (h : f.All looks P) (hP : Closed classes looks P)
    (ht : f.tree pattern position = .ok u) : P u := by
  obtain ⟨last, hlast, ⟨-, rfl⟩ | ⟨hne, source, rfl⟩⟩ := of_tree ht
  · exact h.branch hP hlast
  · have hlength : 2 ≤ (f.branches ++ [last]).length := by
      have := List.length_pos_iff.mpr hne
      simp only [List.length_append, List.length_singleton]
      omega
    refine hP.withSource source (hP.ofMembers hlength fun member hmember => ?_)
    rcases List.mem_append.mp hmember with hmember | hmember
    · exact h.branches member hmember
    · rw [List.mem_singleton.mp hmember]
      exact h.branch hP hlast

theorem All.withStage (h : f.All looks P) {stage : Stage}
    (hs : ∀ t : Term, t.All looks P → Term.All looks P { t with stage }) :
    (f.withStage stage).All looks P := by
  refine ⟨h.branches, h.terms, fun t ht => ?_, h.opening⟩
  obtain ⟨t', ht', rfl⟩ := Option.map_eq_some_iff.mp ht
  exact hs t' (h.term t' ht')

/-- The tree of the atom or of the repeated atom that the term under way has. -/
theorem All.body_of_stage? (h : f.All looks P) {stage : Stage} (hs : f.stage? = some stage) :
    ∃ t : Term, f.term = some t ∧ t.stage = stage ∧ P t.body := by
  obtain ⟨t, ht, rfl⟩ := Option.map_eq_some_iff.mp hs
  exact ⟨t, ht, rfl, (h.term t ht).body⟩

/-- Receiving an opening preserves that all trees have the property: a lookbehind begins a term, and
a lookahead ends one. -/
theorem All.receive (h : f.All looks P) (hP : Closed classes looks P) {opening : Opening}
    (hlooks : opening.isLook = true → looks) (ht : P u) :
    (f.receive pattern stop opening u).All looks P := by
  cases opening with
  | pattern => exact h
  | group place =>
    have := h.termAt hP place
    exact h.withTerm ⟨this.behind, hP.withSource _ ht, nofun⟩
  | lookbehind place =>
    refine h.withTerm ⟨fun part hpart => ?_, hP.empty, nofun⟩
    obtain rfl := Option.some.inj hpart
    exact ⟨hlooks rfl, ht⟩
  | lookahead place =>
    have := h.termAt hP place
    refine h.withTerm ⟨this.behind, this.body, fun part hpart => ?_⟩
    obtain rfl := Option.some.inj hpart
    exact ⟨hlooks rfl, ht⟩

end Frame

/-! ## The reader -/

/-- All trees in the frames of the reader have the property `P`, and there are lookarounds only if
there are `looks`. -/
structure Reader.All (looks : Prop) (P : Tree → Prop) (r : Reader) : Prop where
  frame : r.frame.All looks P
  outer : ∀ f ∈ r.outer, f.All looks P

/-- An atom has a class with the property `classes`, a quantifier asks for less than `unbounded`
occurrences, and there are lookarounds only if there are `looks`. -/
def Lexeme.IsAllowed (classes : CharClass → Prop) (looks : Prop) : Lexeme → Prop
  | .times occurs => occurs.least < unbounded
  | .atom cls => classes cls
  | .lookbehind | .lookahead => looks
  | _ => True

namespace Reader

variable {r r' : Reader} {pattern : List Char} {stop : Nat}

/-- Repeating an atom keeps the property. -/
theorem All.quantify (h : r.All looks P) (hP : Closed classes looks P) {occurs : Extent}
    (hleast : occurs.least < unbounded) (hq : r.quantify pattern stop (.ok occurs) = .ok r') :
    r'.All looks P := by
  obtain ⟨place, atom, e, limited, source, clamps, hstage, he, hlimited, rfl⟩ := of_quantify hq
  obtain rfl := Except.ok.inj he
  obtain ⟨t, -, ht, hbuilt⟩ := h.frame.body_of_stage? hstage
  rw [Term.body, ht] at hbuilt
  exact ⟨h.frame.withStage fun t ht =>
    ⟨ht.behind, hP.withSource source (hP.repeated hbuilt hleast hlimited), nofun⟩, h.outer⟩

/-- Reading a lexeme preserves that all trees have the property. The frame around waits with a term
under way, and the frame inside has no trees yet. -/
theorem All.takes (h : r.All looks P) (hP : Closed classes looks P) {lexeme : Lexeme}
    (hl : lexeme.IsAllowed classes looks) (ht : Takes pattern stop r lexeme r') :
    r'.All looks P := by
  cases ht with
  | bar hbranch =>
    refine ⟨⟨fun tree htree => ?_, nofun, nofun, h.frame.opening⟩, h.outer⟩
    rcases List.mem_append.mp htree with htree | htree
    · exact h.frame.branches tree htree
    · rw [List.mem_singleton.mp htree]
      exact h.frame.branch hP hbranch
  | close htree houter =>
    have hframes := h.outer
    rw [houter, List.forall_mem_cons] at hframes
    exact ⟨hframes.1.receive hP h.frame.opening (h.frame.tree hP htree), hframes.2⟩
  | caret hready =>
    exact ⟨(h.frame.ready hP hready).withTerm (Term.all_fresh hP), h.outer⟩
  | dollar hclosing =>
    have ht := h.frame.closing hP hclosing
    exact ⟨h.frame.withTerm ⟨ht.behind, ht.body, nofun⟩, h.outer⟩
  | group hready =>
    have hf := h.frame.ready hP hready
    exact ⟨Frame.all_opened nofun _,
      List.forall_mem_cons.mpr ⟨hf.withTerm (hf.termAt hP _), h.outer⟩⟩
  | lookbehind hready =>
    have hf := h.frame.ready hP hready
    exact ⟨Frame.all_opened (fun _ => hl) _,
      List.forall_mem_cons.mpr ⟨hf.withTerm (hf.termAt hP _), h.outer⟩⟩
  | lookahead hclosing =>
    exact ⟨Frame.all_opened (fun _ => hl) _,
      List.forall_mem_cons.mpr ⟨h.frame.withTerm (h.frame.closing hP hclosing), h.outer⟩⟩
  | lazy hstage =>
    obtain ⟨t, -, ht, hbuilt⟩ := h.frame.body_of_stage? hstage
    rw [Term.body, ht] at hbuilt
    exact ⟨h.frame.withStage fun t ht => ⟨ht.behind, hP.withSource _ hbuilt, nofun⟩, h.outer⟩
  | optional _ hquantify => exact h.quantify hP (by decide) hquantify
  | times hquantify => exact h.quantify hP hl hquantify
  | atom hready =>
    have hf := h.frame.ready hP hready
    have := hf.termAt hP r.position
    exact ⟨hf.withTerm ⟨this.behind, hP.withSource _ (hP.ofClass hl), nofun⟩, h.outer⟩

/-- Reading a token preserves that all trees have the property. -/
theorem All.step (h : r.All looks P) (hP : Closed classes looks P) {t : Token}
    (hl : t.lexeme.IsAllowed classes looks) (hs : r.step pattern t = .ok r') : r'.All looks P := by
  obtain ⟨taken, htakes, rfl⟩ := of_step hs
  have htaken := h.takes hP hl htakes
  exact ⟨htaken.frame, htaken.outer⟩

/-- What is read from tokens that are allowed has the property. -/
theorem All.run (h : r.All looks P) (hP : Closed classes looks P) {ts : List Token}
    (hl : ∀ t ∈ ts, t.lexeme.IsAllowed classes looks) (hrun : r.run pattern ts = (r', none)) :
    r'.All looks P :=
  Reader.run_induction (fun _ _ t ht hr hstep => hr.step hP (hl t ht) hstep) h hrun

end Reader

end All

/-! ## Whole patterns -/

/-- A number that is read can be counted. -/
theorem lt_of_readDecimal {offset n taken : Nat} {rest : List Char}
    (h : readDecimal offset rest = .ok (n, taken)) : n < unbounded := by
  unfold readDecimal at h
  split at h
  · cases h
  split at h
  · cases h
  next hsmall =>
    obtain ⟨rfl, -⟩ := Prod.mk.inj (Except.ok.inj h)
    exact Nat.lt_of_not_le hsmall

/-- The least number in braces can be counted. It comes first, whatever follows it. -/
theorem least_lt_of_readBraces {rest : List Char} {occurs : Extent} {taken : Nat}
    (h : readBraces rest = .ok (occurs, taken)) : occurs.least < unbounded := by
  simp only [readBraces, bind_eq_ok] at h
  obtain ⟨⟨least, n⟩, hleast, h⟩ := h
  have hsmall := lt_of_readDecimal hleast
  split at h
  · obtain ⟨rfl, -⟩ := Prod.mk.inj (Except.ok.inj h)
    exact Nat.lt_of_le_of_lt (Nat.min_le_left _ _) hsmall
  · obtain ⟨rfl, -⟩ := Prod.mk.inj (Except.ok.inj h)
    exact Nat.lt_of_le_of_lt (Nat.min_le_left _ _) hsmall
  · simp only [bind_eq_ok] at h
    obtain ⟨⟨most, m⟩, -, h⟩ := h
    split at h
    · split at h
      next e he =>
        obtain ⟨rfl, -⟩ := Prod.mk.inj (Except.ok.inj h)
        unfold Extent.ofEnds at he
        split at he
        · obtain rfl := Except.ok.inj he
          exact Nat.lt_of_le_of_lt (Nat.min_le_left _ _) hsmall
        · cases he
      · cases h
    · cases h
  · cases h

/-- The sets with names have characters, as there is white space. -/
theorem namedSet?_ne_empty {space set : CharSet} {c : Char} {inside : Bool}
    (hspace : space.isEmpty = false) (h : Escape.namedSet? space c = some (set, inside)) :
    set ≠ ∅ := by
  have hdigits : CharSet.digits ≠ ∅ := by
    intro h
    have hmem : '0' ∈ CharSet.digits := by simp [CharSet.digits]
    exact CharSet.not_mem_empty (h ▸ hmem)
  have hword : CharSet.wordChars ≠ ∅ := by
    intro h
    have hmem : 'a' ∈ CharSet.wordChars := by simp [CharSet.wordChars]
    exact CharSet.not_mem_empty (h ▸ hmem)
  have hspace : space ≠ ∅ := by
    rintro rfl
    cases hspace
  unfold Escape.namedSet? at h
  split at h
  any_goals
    obtain ⟨rfl, -⟩ := Prod.mk.inj (Option.some.inj h)
    assumption
  cases h

theorem literal_ne_empty (c : Char) : CharClass.literal c ≠ .anyOf ∅ := by
  intro h
  have hc : c ∈ CharSet.singleton c := CharSet.mem_singleton.mpr rfl
  rw [CharClass.anyOf.inj h] at hc
  exact CharSet.not_mem_empty hc

/-- No escape stands for a class without characters. -/
theorem ne_empty_of_readEscape {space : CharSet} {rest : List Char} {cls : CharClass} {taken : Nat}
    (hspace : space.isEmpty = false) (h : Escape.read space rest = .ok (cls, taken)) :
    cls ≠ .anyOf ∅ := by
  unfold Escape.read at h
  split at h
  · cases h
  · split at h
    · cases h
    split at h
    · cases h
    split at h
    · cases h
    split at h
    next set hset =>
      obtain ⟨rfl, -⟩ := Prod.mk.inj (Except.ok.inj h)
      exact fun heq => namedSet?_ne_empty hspace hset (CharClass.anyOf.inj heq)
    next =>
      obtain ⟨rfl, -⟩ := Prod.mk.inj (Except.ok.inj h)
      intro heq
      cases heq
    next =>
      obtain ⟨⟨c, n⟩, -, h⟩ := map_eq_ok.mp h
      obtain ⟨rfl, -⟩ := Prod.mk.inj h
      exact literal_ne_empty c

/-- No class is read that has no characters. -/
theorem isAllowed_read {space : CharSet} (hspace : space.isEmpty = false) (c : Char)
    (rest : List Char) : (Lexeme.read space c rest).1.IsAllowed (· ≠ .anyOf ∅) True := by
  unfold Lexeme.read
  split
  -- Most characters do not begin a quantifier.
  any_goals trivial
  · exact (by decide : (0 : Nat) < unbounded)
  · exact (by decide : (1 : Nat) < unbounded)
  · exact nofun
  · unfold readOpening
    split
    any_goals trivial
    dsimp only
    split <;> trivial
  · split
    next occurs taken h => exact least_lt_of_readBraces h
    · trivial
  · split
    next cls taken h =>
      simp only [Bracket.read, bind_eq_ok, check_eq_ok, pure_eq_ok] at h
      obtain ⟨⟨items, stop⟩, -, -, hcls, heq⟩ := h
      obtain ⟨rfl, -⟩ := Prod.mk.inj heq
      exact hcls
    · trivial
  · split
    next cls taken h => exact ne_empty_of_readEscape hspace h
    · trivial
  · exact literal_ne_empty _

/-- None of the tokens of a text stands for a class without characters. -/
theorem isAllowed_of_mem_tokens {space : CharSet} (hspace : space.isEmpty = false)
    {text : List Char} {t : Token} (ht : t ∈ tokens space text) :
    t.lexeme.IsAllowed (· ≠ .anyOf ∅) True := by
  fun_induction tokens space text with
  | case1 => cases ht
  | case2 c rest lexeme taken hread ih =>
    rcases List.mem_cons.mp ht with rfl | ht
    · have := isAllowed_read hspace c rest
      rwa [hread] at this
    · exact ih ht

/-! ### Lookarounds -/

/-- Whether the lexeme is the opening of a lookaround. -/
def Lexeme.isLook : Lexeme → Bool
  | .lookbehind | .lookahead => true
  | _ => false

theorem Lexeme.IsAllowed.of_isLook {classes : CharClass → Prop} {looks : Prop} {l : Lexeme}
    (h : l.IsAllowed classes True) (hl : l.isLook = true → looks) : l.IsAllowed classes looks := by
  cases l with
  | lookbehind => exact hl rfl
  | lookahead => exact hl rfl
  | _ => exact h

namespace Reader

variable {r r' : Reader} {pattern : List Char} {stop : Nat}

theorem lookaround_of_quantify {occurs : Except Error Extent}
    (h : r.quantify pattern stop occurs = .ok r') : r'.lookaround = r.lookaround := by
  obtain ⟨place, atom, e, limited, source, clamps, -, -, -, rfl⟩ := of_quantify h
  rfl

/-- The reader knows of a lookaround once one has been opened. -/
theorem Takes.lookaround {l : Lexeme} (h : Takes pattern stop r l r') :
    r'.lookaround.isSome = (l.isLook || r.lookaround.isSome) := by
  cases h with
  | optional _ hquantify => exact congrArg Option.isSome (lookaround_of_quantify hquantify)
  | times hquantify => exact congrArg Option.isSome (lookaround_of_quantify hquantify)
  | _ => rfl

/-- Where no lookaround has been met, there was none in the tokens. -/
theorem isLook_eq_false_of_run {ts : List Token} (hrun : r.run pattern ts = (r', none))
    (h : r'.lookaround = none) : r.lookaround = none ∧ ∀ t ∈ ts, t.lexeme.isLook = false := by
  induction ts generalizing r with
  | nil =>
    obtain rfl : r = r' := (Prod.mk.inj hrun).1
    exact ⟨h, by simp⟩
  | cons t ts ih =>
    obtain ⟨r₁, hstep, hrun⟩ := of_run hrun
    obtain ⟨hnone, hts⟩ := ih hrun
    obtain ⟨taken, htakes, rfl⟩ := of_step hstep
    have hlook := htakes.lookaround
    rw [show taken.lookaround = none from hnone, Option.isSome_none, eq_comm,
      Bool.or_eq_false_iff, Option.isSome_eq_false_iff, Option.isNone_iff_eq_none] at hlook
    exact ⟨hlook.2, List.forall_mem_cons.mpr ⟨hlook.1, hts⟩⟩

end Reader

/-- The tree of a pattern has every property that is closed. Where the whole string has to match,
it is read without lookarounds. -/
theorem Closed.of_parse {P : Tree → Prop} {options : Options} {pattern : List Char} {tree : Tree}
    (hP : Closed (· ≠ .anyOf ∅) (options.whole = false) P)
    (h : parse options pattern = .ok tree) : P tree := by
  obtain ⟨r, hrun, hfinish⟩ := Pattern.of_parse h
  obtain ⟨htree, -, hwhole⟩ := Reader.of_finish hfinish
  have hlook : ∀ t ∈ tokens options.alphabet.space pattern, t.lexeme.isLook = true →
      options.whole = false := by
    intro t ht hlook
    cases hw : options.whole with
    | false => rfl
    | true =>
      have := (Reader.isLook_eq_false_of_run hrun (hwhole hw)).2 t ht
      rw [hlook] at this
      cases this
  -- Nothing has been read at first, and every token preserves the invariant.
  have hr : r.All (options.whole = false) P := Reader.All.run
    ⟨Frame.all_opened nofun _, by simp⟩ hP
    (fun t ht => (isAllowed_of_mem_tokens options.alphabet.space_nonempty ht).of_isLook
      (hlook t ht)) hrun
  exact hr.frame.tree hP htree

/-! ## How trees are built -/

/-- Trees that are put together as reading does it, with all its checks passed. -/
inductive Built : Tree → Prop where
  | ofClass (cls : CharClass) : Built (.ofClass cls)
  | empty : Built .empty
  | withSource {tree : Tree} (source : String) : Built tree → Built (tree.withSource source)
  /-- Parts of which only the first is held at the front and only the last at the back. -/
  | ofParts {parts : List (Nat × Tree)} : checkPlacement true parts = .ok () →
    (∀ part ∈ parts, Built part.2) → Built (.ofParts (parts.map Prod.snd))
  | ofMembers {members : List Tree} : (∀ tree ∈ members, Built tree) → Built (.ofMembers members)
  /-- An atom with a quantifier, which is reduced where the atom is pinned. -/
  | repeated {atom : Tree} {occurs limited : Extent} {position : Nat} : Built atom →
    occurs.least < unbounded → limitRepeat atom.pins occurs position = .ok limited →
    Built (repeated atom limited)
  /-- A term with lookarounds. -/
  | looked {tree : Tree} (t : Term) : Built tree → Built (tree.pinned t.lookPins)
  /-- A term with an anchor, on a side that no lookaround holds. -/
  | anchored {tree : Tree} (side : Side) : Built tree → (tree.pins.on side).byLook = false →
    Built (tree.pinned (.only side .anchor))

/-- What reading builds is closed under what reading does. -/
theorem closed_built {classes : CharClass → Prop} {looks : Prop} : Closed classes looks Built where
  ofClass _ := .ofClass _
  empty := .empty
  withSource := .withSource
  ofParts := .ofParts
  ofMembers _ := .ofMembers
  repeated := .repeated
  looked t _ := .looked t
  anchored := .anchored

/-- The tree of a pattern has been built. -/
theorem built_of_parse {options : Options} {pattern : List Char} {tree : Tree}
    (h : parse options pattern = .ok tree) : Built tree :=
  Closed.of_parse closed_built h

end Exemplar.Pattern
