import Exemplar.Proofs.Pattern.Enclosure
import Exemplar.Proofs.Text.Classes
import Exemplar.Proofs.Text.Resemblance

/-!
# Putting patterns together

Patterns are put together from others in groups. What a group is read as depends only on the pattern
in it, and neither on what stands around it nor on how it is opened. So a group describes the same
strings as its pattern, groups that follow each other describe concatenations, groups with a bar
between them a union, and a group with a quantifier so many strings of its pattern.

A pattern that is pinned to an end of the string is not read the same way everywhere, so the results
ask for trees without pins where a group has something beside it or is repeated.

## Main definitions

* `Stage.Bears`: a term that has nothing but a tree as its body

## Main results

* `parse_grouped`, `parse_grouped_append`, `parse_grouped_bar`, `parse_grouped_braces`: the trees of
  patterns that are put together
* `parse_composed`: the strings that they describe
-/

namespace Exemplar.Pattern

open Grammar (GroupOpening)

variable {options : Options} {p q text : List Char} {t u : Tree}

/-! ## Tokens -/

/-- The tokens of a quantifier in braces. -/
theorem tokens_braces {space : CharSet} {w : List Char} {e : Extent}
    (h : ∀ rest, readBraces (w ++ rest) = .ok (e, w.length)) (rest : List Char) :
    tokens space ('{' :: w ++ rest) = ⟨.times e, '{' :: w⟩ :: tokens space rest := by
  rw [List.cons_append, tokens, Lexeme.read]
  simp only [h rest, List.take_left, List.drop_left]

/-! ## Terms and frames -/

/-- A term with nothing but this tree as its body. -/
inductive Stage.Bears : Stage → Tree → Prop where
  | atom {place : Nat} {x : Tree} : Bears (.atom place x) x
  | repeated {place : Nat} {x : Tree} : Bears (.repeated place x) x
  | body {x : Tree} : Bears (.body x) x

namespace Frame

variable {g : Frame} {place position : Nat} {stage : Stage} {x : Tree}

/-- A term without anchors and lookarounds is finished with its body as its tree. -/
theorem endTerm_bearing (hg : g.term = none) (hx : stage.Bears x) (text : List Char)
    (position : Nat) :
    (g.bearing place stage).endTerm text position = .ok (g.finished place x) := by
  have hterm : g.termAt place = { start := place, bodyAt := place } := by rw [termAt, hg]; rfl
  unfold endTerm bearing
  rw [hterm]
  cases hx <;> rfl

/-- Something may be put behind it. -/
theorem ready_bearing (hg : g.term = none) (hx : stage.Bears x) (text : List Char)
    (position : Nat) :
    (g.bearing place stage).ready text position = .ok (g.finished place x) := by
  have hend : (g.bearing place stage).endTerm text position = .ok (g.finished place x) :=
    endTerm_bearing hg hx text position
  cases hx <;> exact hend

/-- A single term is the whole alternative. -/
theorem branch_bearing (hg : g.term = none) (hterms : g.terms = []) (hx : stage.Bears x)
    (text : List Char) (position : Nat) :
    (g.bearing place stage).branch text position = .ok x := by
  simp only [branch, endTerm_bearing hg hx, finished, hterms, bind_eq_ok]
  exact ⟨_, rfl, (), rfl, rfl⟩

/-- Two terms are the parts of a sequence. -/
theorem branch_bearing_behind {first : Nat × Tree} (hg : g.term = none) (hterms : g.terms = [first])
    (hx : stage.Bears x) (hplace : checkPlacement true [first, (place, x)] = .ok ())
    (text : List Char) (position : Nat) :
    (g.bearing place stage).branch text position = .ok ((Tree.ofParts [first.2, x]).withSource
      (excerpt text g.branchStart position)) := by
  simp only [branch, endTerm_bearing hg hx, finished, hterms, bind_eq_ok]
  exact ⟨_, rfl, (), hplace, rfl⟩

/-- A single alternative is the whole pattern. -/
theorem tree_of_branch {f : Frame} (hbranches : f.branches = [])
    (hx : f.branch text position = .ok x) : f.tree text position = .ok x := by
  simp only [Frame.tree, hx, hbranches, bind_eq_ok]
  exact ⟨x, rfl, rfl⟩

/-- Two alternatives are the members of a choice. -/
theorem tree_of_branch_behind {f : Frame} {first : Tree} (hbranches : f.branches = [first])
    (hx : f.branch text position = .ok x) :
    f.tree text position =
      .ok ((Tree.ofMembers [first, x]).withSource (excerpt text f.start position)) := by
  simp only [Frame.tree, hx, hbranches, bind_eq_ok]
  exact ⟨x, rfl, rfl⟩

end Frame

/-! ## The reader -/

namespace Reader

/-- The reader is in the frame and in no other one; where the whole string has to match, it has met
no lookaround. -/
structure StandsIn (options : Options) (f : Frame) (r : Reader) : Prop where
  frame : r.frame = f
  outer : r.outer = []
  lookaround : options.whole = true → r.lookaround = none

variable {r : Reader} {f g : Frame} {place position : Nat} {x : Tree}

theorem standsIn_opened (options : Options) : StandsIn options (.opened .pattern 0) {} :=
  ⟨rfl, rfl, fun _ => rfl⟩

/-- A group is an atom. -/
theorem StandsIn.group (h : StandsIn options f r) (hp : parse options p = .ok t) (text : List Char)
    (hready : f.ready text r.position = .ok g) (opening : List Char) :
    ∃ r' place position x,
      r.run text (groupTokens options.alphabet.space opening p) = (r', none) ∧
        StandsIn options (g.bearing place (.atom position x)) r' ∧ x.Alike t := by
  obtain ⟨r', position, x, hrun, houter, hlook, hframe, hx⟩ :=
    run_group hp text h.outer (h.frame ▸ hready) opening
  exact ⟨r', r.position, position, x, hrun,
    ⟨hframe, houter, fun hw => hlook hw (h.lookaround hw)⟩, hx.symm⟩

/-- An atom that is not pinned takes any quantifier. -/
theorem StandsIn.times (h : StandsIn options (g.bearing place (.atom position x)) r)
    (hx : x.pins = .free) (e : Extent) (text chars : List Char) :
    ∃ r' source, r.step text ⟨.times e, chars⟩ = .ok r' ∧ StandsIn options
      (g.bearing place (.repeated position ((repeated x e).withSource source))) r' := by
  have hlimit : limitRepeat x.pins e position = .ok e := hx ▸ limitRepeat_free e position
  exact ⟨_, _, Takes.step (.times (quantify_bearing h.frame hlimit)), rfl, h.outer, h.lookaround⟩

/-- A quantifier that is made lazy changes nothing but the source of the tree. -/
theorem StandsIn.question (h : StandsIn options (g.bearing place (.repeated position x)) r)
    (text chars : List Char) :
    ∃ r' source, r.step text ⟨.question, chars⟩ = .ok r' ∧
      StandsIn options (g.bearing place (.body (x.withSource source))) r' := by
  have hstage : r.frame.stage? = some (.repeated position x) := by rw [h.frame]; rfl
  exact ⟨_, _, Takes.step (.lazy hstage), by rw [h.frame]; rfl, h.outer, h.lookaround⟩

/-- A bar ends an alternative. -/
theorem StandsIn.bar (h : StandsIn options f r) (hbranch : f.branch text r.position = .ok x)
    (chars : List Char) :
    ∃ r' start, r.step text ⟨.bar, chars⟩ = .ok r' ∧ StandsIn options
      { f with branches := f.branches ++ [x], branchStart := start, terms := [], term := none }
      r' := by
  exact ⟨_, _, Takes.step (.bar (h.frame ▸ hbranch)), by rw [h.frame], h.outer, h.lookaround⟩

/-- What has been read when the text ends is a pattern. -/
theorem StandsIn.parse (h : StandsIn options f r)
    (hrun : Reader.run text {} (tokens options.alphabet.space text) = (r, none))
    (htree : f.tree text r.position = .ok x) : parse options text = .ok x := by
  unfold Pattern.parse read
  rw [hrun]
  simp only [finish, h.frame, htree, h.outer, bind_eq_ok]
  refine ⟨x, rfl, ?_⟩
  cases hw : options.whole with
  | false => rfl
  | true => rw [h.lookaround hw]; rfl

end Reader

/-! ## Patterns -/

theorem tokens_grouped_end (hp : parse options p = .ok t) (opening : GroupOpening) :
    tokens options.alphabet.space (grouped opening p) =
      groupTokens options.alphabet.space ('(' :: opening.text) p := by
  have htokens := tokens_grouped hp opening []
  rwa [List.append_nil, tokens, List.append_nil] at htokens

/-- A pattern in a group has the same tree as the pattern. -/
theorem parse_grouped (hp : parse options p = .ok t) (opening : GroupOpening) :
    ∃ v, parse options (grouped opening p) = .ok v ∧ v.Alike t := by
  obtain ⟨r, place, position, x, hrun, hr, hx⟩ := (Reader.standsIn_opened options).group hp
    (grouped opening p) rfl ('(' :: opening.text)
  rw [← tokens_grouped_end hp] at hrun
  exact ⟨x, hr.parse hrun (Frame.tree_of_branch rfl (Frame.branch_bearing rfl rfl .atom _ _)), hx⟩

/-- Groups that follow each other are the parts of a sequence. Trees that are not pinned may stand
anywhere. -/
theorem parse_grouped_append (hp : parse options p = .ok t) (hq : parse options q = .ok u)
    (ht : t.pins = .free) (hu : u.pins = .free) (opening opening' : GroupOpening) :
    ∃ v, parse options (grouped opening p ++ grouped opening' q) = .ok v ∧
      v.Alike (.ofParts [t, u]) := by
  let text := grouped opening p ++ grouped opening' q
  obtain ⟨r, place, position, x, hrun, hr, hx⟩ := (Reader.standsIn_opened options).group hp
    text rfl ('(' :: opening.text)
  obtain ⟨r', place', position', y, hrun', hr', hy⟩ := hr.group hq text
    (Frame.ready_bearing rfl .atom text r.position) ('(' :: opening'.text)
  have htext : Reader.run text {} (tokens options.alphabet.space text) = (r', none) := by
    rw [tokens_grouped hp, tokens_grouped_end hq, Reader.run_append hrun, hrun']
  have hplace : checkPlacement true [(place, x), (place', y)] = .ok () := by
    simp [checkPlacement, hx.pins, hy.pins, ht, hu, Pins.free, Pin.free]
  refine ⟨_, hr'.parse htext (Frame.tree_of_branch rfl
    (Frame.branch_bearing_behind rfl rfl .atom hplace text _)), ?_⟩
  exact (Tree.unsourced_withSource _ _).trans (Tree.Alike.ofParts (.cons hx (.cons hy .nil)))

/-- Groups with a bar between them are the members of a choice. -/
theorem parse_grouped_bar (hp : parse options p = .ok t) (hq : parse options q = .ok u)
    (opening opening' : GroupOpening) :
    ∃ v, parse options (grouped opening p ++ '|' :: grouped opening' q) = .ok v ∧
      v.Alike (.ofMembers [t, u]) := by
  let text := grouped opening p ++ '|' :: grouped opening' q
  obtain ⟨r, place, position, x, hrun, hr, hx⟩ := (Reader.standsIn_opened options).group hp
    text rfl ('(' :: opening.text)
  obtain ⟨r₁, start, hbar, hr₁⟩ := hr.bar (Frame.branch_bearing rfl rfl .atom text _) ['|']
  obtain ⟨r', place', position', y, hrun', hr', hy⟩ := hr₁.group hq text rfl
    ('(' :: opening'.text)
  have htokens : tokens options.alphabet.space ('|' :: grouped opening' q) =
      ⟨.bar, ['|']⟩ :: groupTokens options.alphabet.space ('(' :: opening'.text) q := by
    rw [tokens, Lexeme.read]
    exact congrArg _ (tokens_grouped_end hq opening')
  have htext : Reader.run text {} (tokens options.alphabet.space text) = (r', none) := by
    rw [tokens_grouped hp, htokens, Reader.run_append hrun, Reader.run, hbar]
    exact hrun'
  refine ⟨_, hr'.parse htext (Frame.tree_of_branch_behind rfl
    (Frame.branch_bearing rfl rfl .atom text _)), ?_⟩
  exact (Tree.unsourced_withSource _ _).trans (Tree.Alike.ofMembers (.cons hx (.cons hy .nil)))

section Braces

variable {w : List Char} {e : Extent} (hw : ∀ rest, readBraces (w ++ rest) = .ok (e, w.length))

include hw

/-- A group with a quantifier in braces, with any text behind it. -/
theorem run_grouped_braces (hp : parse options p = .ok t) (ht : t.pins = .free)
    (opening : GroupOpening) (rest : List Char) :
    ∃ ts r place position x,
      tokens options.alphabet.space (grouped opening p ++ ('{' :: w ++ rest)) =
        ts ++ tokens options.alphabet.space rest ∧
      Reader.run (grouped opening p ++ ('{' :: w ++ rest)) {} ts = (r, none) ∧
      Reader.StandsIn options
        ((Frame.opened .pattern 0).bearing place (.repeated position x)) r ∧
      x.Alike (repeated t e) := by
  obtain ⟨r, place, position, x, hrun, hr, hx⟩ := (Reader.standsIn_opened options).group hp
    (grouped opening p ++ ('{' :: w ++ rest)) rfl ('(' :: opening.text)
  obtain ⟨r', source, hstep, hr'⟩ := hr.times (hx.pins.trans ht) e
    (grouped opening p ++ ('{' :: w ++ rest)) ('{' :: w)
  refine ⟨groupTokens options.alphabet.space ('(' :: opening.text) p ++ [⟨.times e, '{' :: w⟩], r',
    place, position, _, ?_, ?_, hr', (Tree.unsourced_withSource _ _).trans (hx.repeated e)⟩
  · rw [tokens_grouped hp, tokens_braces hw, List.append_assoc]
    rfl
  · rw [Reader.run_append hrun, Reader.run, hstep]
    rfl

/-- A group with a quantifier in braces is repeated. -/
theorem parse_grouped_braces (hp : parse options p = .ok t) (ht : t.pins = .free)
    (opening : GroupOpening) :
    ∃ v, parse options (grouped opening p ++ '{' :: w) = .ok v ∧ v.Alike (repeated t e) := by
  obtain ⟨ts, r, place, position, x, htokens, hrun, hr, hx⟩ :=
    run_grouped_braces hw hp ht opening []
  rw [List.append_nil, tokens, List.append_nil] at htokens
  rw [List.append_nil, ← htokens] at hrun
  exact ⟨x, hr.parse hrun
    (Frame.tree_of_branch rfl (Frame.branch_bearing rfl rfl .repeated _ _)), hx⟩

/-- A lazy quantifier repeats the group in the same way. -/
theorem parse_grouped_lazy (hp : parse options p = .ok t) (ht : t.pins = .free)
    (opening : GroupOpening) :
    ∃ v, parse options (grouped opening p ++ ('{' :: w ++ ['?'])) = .ok v ∧
      v.Alike (repeated t e) := by
  obtain ⟨ts, r, place, position, x, htokens, hrun, hr, hx⟩ :=
    run_grouped_braces hw hp ht opening ['?']
  obtain ⟨r', source, hstep, hr'⟩ := hr.question (grouped opening p ++ ('{' :: w ++ ['?'])) ['?']
  have hquestion : tokens options.alphabet.space ['?'] = [⟨.question, ['?']⟩] := by
    simp [tokens, Lexeme.read]
  have htext : Reader.run (grouped opening p ++ ('{' :: w ++ ['?'])) {}
      (tokens options.alphabet.space (grouped opening p ++ ('{' :: w ++ ['?']))) = (r', none) := by
    rw [htokens, hquestion, Reader.run_append hrun, Reader.run, hstep]
    rfl
  exact ⟨_, hr'.parse htext (Frame.tree_of_branch rfl (Frame.branch_bearing rfl rfl .body _ _)),
    (Tree.unsourced_withSource _ _).trans hx⟩

end Braces

/-! ## What they describe -/

/-- The quantifier from `m` to `n` occurrences. -/
def braces (m n : Nat) : List Char := '{' :: (decimal m ++ ',' :: decimal n ++ ['}'])

/-- The quantifier for `m` and more occurrences. -/
def openBraces (m : Nat) : List Char := '{' :: (decimal m ++ [',', '}'])

/-- Two numbers in braces are read with any text behind them. -/
theorem readBraces_append_between {e : Extent} (h : e.most < unbounded) (rest : List Char) :
    readBraces (decimal e.least ++ ',' :: decimal e.most ++ ['}'] ++ rest) =
      .ok (e, (decimal e.least ++ ',' :: decimal e.most ++ ['}']).length) := by
  have hlength : (decimal e.least ++ ',' :: decimal e.most ++ ['}']).length =
      (decimal e.least).length + 1 + (decimal e.most).length + 1 := by
    simp
    omega
  rw [hlength, ← readBraces_between h rest]
  simp

theorem readBraces_append_atLeast {m : Nat} (h : m < unbounded) (rest : List Char) :
    readBraces (decimal m ++ [',', '}'] ++ rest) =
      .ok (.atLeast m, (decimal m ++ [',', '}']).length) := by
  rw [List.length_append, List.append_assoc]
  exact readBraces_atLeast h rest

/-- Patterns without pins that are put together in groups of any kind describe what is put together
from what they describe, whatever the classes stand for. A group has the tree of its pattern, and a
lazy quantifier gives the tree that the quantifier gives. -/
theorem parse_composed (hp : parse options p = .ok t) (hq : parse options q = .ok u)
    (ht : t.pins = .free) (hu : u.pins = .free) {m n : Nat} (hmn : m ≤ n) (hn : n < unbounded)
    (opening opening' : GroupOpening) (M : Meaning) :
    (∃ v, parse options (grouped opening p) = .ok v ∧ v.Alike t) ∧
    (∃ v, parse options (grouped opening p ++ grouped opening' q) = .ok v ∧
      v.language M = t.language M * u.language M) ∧
    (∃ v, parse options (grouped opening p ++ '|' :: grouped opening' q) = .ok v ∧
      v.language M = t.language M + u.language M) ∧
    (∃ v lazy, parse options (grouped opening p ++ braces m n) = .ok v ∧
      v.language M = {w | ∃ k, (m ≤ k ∧ k ≤ n) ∧ w ∈ t.language M ^ k} ∧
      parse options (grouped opening p ++ (braces m n ++ ['?'])) = .ok lazy ∧ lazy.Alike v) ∧
    ∃ v lazy, parse options (grouped opening p ++ openBraces m) = .ok v ∧
      v.language M = {w | ∃ k, m ≤ k ∧ w ∈ t.language M ^ k} ∧
      parse options (grouped opening p ++ (openBraces m ++ ['?'])) = .ok lazy ∧ lazy.Alike v := by
  refine ⟨parse_grouped hp opening, ?_, ?_, ?_, ?_⟩
  · obtain ⟨v, hv, halike⟩ := parse_grouped_append hp hq ht hu opening opening'
    refine ⟨v, hv, ?_⟩
    rw [halike.language, Tree.language_ofParts, Tree.languageOfParts,
      Tree.languageOfParts_singleton]
  · obtain ⟨v, hv, halike⟩ := parse_grouped_bar hp hq opening opening'
    refine ⟨v, hv, ?_⟩
    rw [halike.language, Tree.language_ofMembers, Tree.languageOfMembers,
      Tree.languageOfMembers_singleton]
  · let e : Extent := ⟨m, n, hmn, hn.le⟩
    have hw := readBraces_append_between (e := e) hn
    obtain ⟨v, hv, halike⟩ := parse_grouped_braces hw hp ht opening
    obtain ⟨lazy, hlazy, halike'⟩ := parse_grouped_lazy hw hp ht opening
    refine ⟨v, lazy, hv, ?_, hlazy, halike'.trans halike.symm⟩
    have hcounts (k : Nat) : e.Admits k ↔ m ≤ k ∧ k ≤ n := by
      simp only [Extent.Admits, e]
      omega
    rw [halike.language, Tree.language_repeated]
    exact Set.ext fun w => exists_congr fun k => and_congr_left fun _ => hcounts k
  · have hm : m < unbounded := hmn.trans_lt hn
    have hw := readBraces_append_atLeast hm
    obtain ⟨v, hv, halike⟩ := parse_grouped_braces hw hp ht opening
    obtain ⟨lazy, hlazy, halike'⟩ := parse_grouped_lazy hw hp ht opening
    refine ⟨v, lazy, hv, ?_, hlazy, halike'.trans halike.symm⟩
    have hcounts (k : Nat) : (Extent.atLeast m).Admits k ↔ m ≤ k := by
      simp only [Extent.Admits, Extent.atLeast, Nat.min_eq_left hm.le, true_or, and_true]
    rw [halike.language, Tree.language_repeated]
    exact Set.ext fun w => exists_congr fun k => and_congr_left fun _ => hcounts k

/-- The strings of `(a|b)(c)` are those of `a|b` with `c` behind them, and the strings of
`(a|b){2,3}` are two or three of them. -/
theorem parse_composed_choice : ∃ t u v w,
    parse {} ['a', '|', 'b'] = .ok t ∧ parse {} ['c'] = .ok u ∧
    parse {} "(a|b)(c)".toList = .ok v ∧ parse {} "(a|b)\x7b2,3\x7d".toList = .ok w ∧
    v.language .accepted = t.language .accepted * u.language .accepted ∧
    w.language .accepted = {s | ∃ k, (2 ≤ k ∧ k ≤ 3) ∧ s ∈ t.language .accepted ^ k} := by
  obtain ⟨t, ht, htest⟩ := exists_ok_of_any
    (show ((parse {} ['a', '|', 'b']).toOption.any fun t => decide (t.pins = .free)) = true by
      decide +kernel)
  obtain ⟨u, hu, hutest⟩ := exists_ok_of_any
    (show ((parse {} ['c']).toOption.any fun u => decide (u.pins = .free)) = true by
      decide +kernel)
  obtain ⟨-, ⟨v, hv, hconcat⟩, -, ⟨w, _, hw, hrepeat, -⟩, -⟩ :=
    parse_composed (m := 2) (n := 3) ht hu (of_decide_eq_true htest) (of_decide_eq_true hutest)
      (by decide) (by decide) .capturing .capturing .accepted
  exact ⟨t, u, v, w, ht, hu, hv, hw, hconcat, hrepeat⟩

end Exemplar.Pattern
