import Exemplar.Proofs.Grammar.Brackets

/-!
# How symbols, quantifiers and openings are read

The text of a symbol is read as a class for the characters that the symbol stands for, and the text
of a quantifier as an extent for the counts that it allows, whatever comes behind it; or else the
text is found to be malformed.

## Main results

* `Symbol.read`: the text of a symbol
* `Quantifier.read`: the text of a quantifier
* `GroupOpening.read`: the opening of a group
-/

namespace Exemplar.Grammar

open Pattern

variable {space : CharSet}

/-! ## Symbols -/

/-- What the text of a symbol is read as, whatever comes behind it: a class for the characters that
the symbol stands for, or something malformed. -/
def ReadsSymbol (space : CharSet) (x : Symbol) (first : Char) (more rest : List Char) : Prop :=
  (∃ cls, Lexeme.read space first (more ++ rest) = (.atom cls, more.length) ∧
    Meaning.accepted cls = x.chars space) ∨
  ∃ e n, Lexeme.read space first (more ++ rest) = (.broken e, n)

/-- An escape that is read, or refused, is read or refused as a symbol. -/
theorem readsSymbol_of_escape {x : Symbol} {more rest : List Char}
    (h : (∃ cls, Escape.read space (more ++ rest) = .ok (cls, more.length) ∧
        Meaning.accepted cls = x.chars space) ∨
      ∃ e, Escape.read space (more ++ rest) = .error e) :
    ReadsSymbol space x '\\' more rest := by
  unfold ReadsSymbol Lexeme.read
  rcases h with ⟨cls, hread, hcls⟩ | ⟨e, he⟩
  · exact .inl ⟨cls, by simp [hread], hcls⟩
  · exact .inr ⟨⟨e, 0⟩, 0, by simp [he]⟩

/-- The text of a symbol. No reserved character is read like this. -/
theorem Symbol.read (space : CharSet) (x : Symbol) : ∃ first more, x.text = first :: more ∧
    first ≠ '?' ∧ ∀ rest, ReadsSymbol space x first more rest := by
  cases x with
  | plain c h =>
    simp only [reserved, List.mem_cons, List.not_mem_nil, or_false, not_or] at h
    refine ⟨c, [], rfl, by simp_all, fun rest => .inl ⟨.literal c, ?_, accepted_literal c⟩⟩
    unfold Lexeme.read
    split <;> simp_all
  | dot =>
    refine ⟨'.', [], rfl, by decide, fun rest => .inl ⟨.dot, rfl, ?_⟩⟩
    ext c
    have hmem := CharSet.contains_iff.trans (CharSet.mem_lineTerminators (c := c))
    rw [Meaning.mem_accepted, CharClass.accepts, Bool.not_eq_true', ← Bool.not_eq_true, hmem]
    simp only [not_or]
    rfl
  | escaped letters c h =>
    refine ⟨'\\', letters, rfl, by decide, fun rest => readsSymbol_of_escape ?_⟩
    exact (h.read rest).imp (fun hread => ⟨_, hread, accepted_literal c⟩) id
  | named set negated =>
    refine ⟨'\\', [set.letter negated], rfl, by decide, fun rest => ?_⟩
    exact readsSymbol_of_escape (.inl (set.read negated rest))
  | bracket b =>
    refine ⟨'[', b.text, rfl, by decide, fun rest => ?_⟩
    unfold ReadsSymbol Lexeme.read
    rcases b.read rest with ⟨cls, hread, hcls⟩ | ⟨e, he⟩
    · exact .inl ⟨cls, by simp [hread], hcls⟩
    · exact .inr ⟨e, 0, by simp [he]⟩

/-! ## Quantifiers -/

/-- What the text of a quantifier is read as, whatever comes behind it: the counts that it allows,
or something malformed. -/
def ReadsQuantifier (space : CharSet) (q : Quantifier) (first : Char) (more rest : List Char) :
    Prop :=
  (∃ occurs : Extent, (Lexeme.read space first (more ++ rest) = (.times occurs, more.length) ∨
      Lexeme.read space first (more ++ rest) = (.question, more.length) ∧ occurs = .optional) ∧
    occurs.least < unbounded ∧ {n | occurs.Admits n} = q.counts) ∨
  ∃ e n, Lexeme.read space first (more ++ rest) = (.brokenTimes e, n)

theorem Numeral.takeWhile (n : Numeral) {c : Char} {rest : List Char} (hc : c.isDigit = false) :
    (n.digits ++ c :: rest).takeWhile Char.isDigit = n.digits := by
  rw [List.takeWhile_append_of_pos n.isDigit, List.takeWhile_cons_of_neg (by simp [hc]),
    List.append_nil]

/-- The digits of a numeral, up to something that is no digit, are read as its value, unless that is
too large. -/
theorem Numeral.read (n : Numeral) (offset : Nat) {c : Char} (rest : List Char)
    (hc : c.isDigit = false) :
    (readDecimal offset (n.digits ++ c :: rest) = .ok (n.value, n.digits.length) ∧
      n.value < unbounded) ∨
    (unbounded ≤ n.value ∧ ∃ e, readDecimal offset (n.digits ++ c :: rest) = .error e) := by
  unfold readDecimal
  rw [n.takeWhile hc]
  split
  next hnil => exact absurd hnil n.nonempty
  next =>
    split
    next hlarge => exact .inr ⟨hlarge, _, rfl⟩
    next hsmall => exact .inl ⟨rfl, Nat.lt_of_not_le hsmall⟩

section Braces

variable {rest : List Char} {least taken : Nat}

/-- One number between the braces. -/
theorem readBraces_one {after : List Char} (hleast : readDecimal 1 rest = .ok (least, taken))
    (hafter : rest.drop taken = '}' :: after) :
    readBraces rest = .ok (.exactly least, taken + 1) := by
  simp only [readBraces, hleast, bind_eq_ok]
  exact ⟨_, rfl, by rw [hafter]; rfl⟩

/-- One number and a comma. -/
theorem readBraces_open {after : List Char} (hleast : readDecimal 1 rest = .ok (least, taken))
    (hafter : rest.drop taken = ',' :: '}' :: after) :
    readBraces rest = .ok (.atLeast least, taken + 2) := by
  simp only [readBraces, hleast, bind_eq_ok]
  exact ⟨_, rfl, by rw [hafter]; rfl⟩

/-- Something more behind the comma. As it does not begin with a brace, the comma is not the end. -/
theorem readBraces_comma {more : List Char} (hleast : readDecimal 1 rest = .ok (least, taken))
    (hmore : rest.drop taken = ',' :: more) (hne : ∀ after, more ≠ '}' :: after) :
    readBraces rest = (do
      let (most, takenMost) ← readDecimal (taken + 2) more
      match more.drop takenMost with
      | '}' :: _ =>
        match Extent.ofEnds least most with
        | .ok occurs => return (occurs, taken + 1 + takenMost + 1)
        | .error _ => throw ⟨.quantifierDisordered, 0⟩
      | _ => throw ⟨.quantifierEnd, taken + 2 + takenMost⟩) := by
  rw [readBraces, hleast]
  simp only [bind, Except.bind]
  rw [hmore]
  split
  next heq => simp at heq
  next heq => exact absurd (List.cons.inj heq).2 (hne _)
  next heq =>
    obtain ⟨-, rfl⟩ := List.cons.inj heq
    rfl
  next heq => exact absurd rfl (heq _)

/-- Two numbers with a comma between them. The second number has a digit, so the comma is not the
end. -/
theorem readBraces_two {more after : List Char} {most takenMost : Nat} {occurs : Extent}
    (hleast : readDecimal 1 rest = .ok (least, taken)) (hmore : rest.drop taken = ',' :: more)
    (hmost : readDecimal (taken + 2) more = .ok (most, takenMost))
    (hafter : more.drop takenMost = '}' :: after)
    (hends : Extent.ofEnds least most = .ok occurs) :
    readBraces rest = .ok (occurs, taken + 1 + takenMost + 1) := by
  have hne : ∀ after, more ≠ '}' :: after := by
    rintro after rfl
    rw [readDecimal, List.takeWhile_cons_of_neg (by decide)] at hmost
    cases hmost
  rw [readBraces_comma hleast hmore hne, hmost]
  simp only [bind, Except.bind, hafter, hends]
  rfl

end Braces

/-- What a quantifier in braces is read as. -/
def ReadsBraces (counts : Set Nat) (text rest : List Char) : Prop :=
  (∃ occurs : Extent, readBraces (text ++ rest) = .ok (occurs, text.length) ∧
    occurs.least < unbounded ∧ {n | occurs.Admits n} = counts) ∨
  ∃ e, readBraces (text ++ rest) = .error e

/-- A number in braces allows just this count. -/
theorem Numeral.readExactly (n : Numeral) (rest : List Char) :
    ReadsBraces {k | k = n.value} (n.digits ++ ['}']) rest := by
  rw [ReadsBraces, List.append_assoc, List.singleton_append]
  rcases n.read 1 rest (show '}'.isDigit = false by decide) with ⟨hread, hsmall⟩ | ⟨-, e, he⟩
  · refine .inl ⟨.exactly n.value, ?_, ?_, ?_⟩
    · rw [readBraces_one hread List.drop_left, List.length_append, List.length_singleton]
    · simp [Extent.exactly, hsmall]
    · ext k
      simp [Extent.Admits, Extent.exactly]
      omega
  · exact .inr ⟨e, by simp [readBraces, he]; rfl⟩

/-- A number with a comma behind it allows this count and all beyond it. -/
theorem Numeral.readAtLeast (n : Numeral) (rest : List Char) :
    ReadsBraces {k | n.value ≤ k} (n.digits ++ [',', '}']) rest := by
  rw [ReadsBraces, List.append_assoc, List.cons_append, List.singleton_append]
  rcases n.read 1 ('}' :: rest) (show ','.isDigit = false by decide) with
    ⟨hread, hsmall⟩ | ⟨-, e, he⟩
  · refine .inl ⟨.atLeast n.value, ?_, ?_, ?_⟩
    · rw [readBraces_open hread List.drop_left, List.length_append]
      rfl
    · simp [Extent.atLeast, hsmall]
    · ext k
      simp [Extent.Admits, Extent.atLeast]
      omega
  · exact .inr ⟨e, by simp [readBraces, he]; rfl⟩

/-- Ends that make an extent allow the counts between them. -/
theorem of_ofEnds {least most : Nat} {occurs : Extent} (h : Extent.ofEnds least most = .ok occurs)
    (hmost : most < unbounded) :
    occurs.least < unbounded ∧ {n | occurs.Admits n} = {k | least ≤ k ∧ k ≤ most} := by
  unfold Extent.ofEnds at h
  split at h
  next hle =>
    obtain rfl := Except.ok.inj h
    refine ⟨by simp; omega, ?_⟩
    ext k
    simp [Extent.Admits]
    omega
  next => cases h

/-- A numeral does not begin with a closing brace. -/
theorem Numeral.digits_ne (n : Numeral) (rest more : List Char) :
    n.digits ++ rest ≠ '}' :: more := by
  intro h
  cases hdigits : n.digits with
  | nil => exact n.nonempty hdigits
  | cons d ds =>
    rw [hdigits, List.cons_append, List.cons.injEq] at h
    have hd := n.isDigit d (hdigits ▸ List.mem_cons_self)
    rw [h.1] at hd
    cases hd

/-- Two numbers in braces allow the counts between them, and are refused where they are in the wrong
order. -/
theorem Numeral.readBetween (least most : Numeral) (rest : List Char) :
    ReadsBraces {k | least.value ≤ k ∧ k ≤ most.value}
      (least.digits ++ ',' :: most.digits ++ ['}']) rest := by
  have htext : least.digits ++ ',' :: most.digits ++ ['}'] ++ rest =
      least.digits ++ ',' :: (most.digits ++ '}' :: rest) := by simp
  have hlength : (least.digits ++ ',' :: most.digits ++ ['}']).length =
      least.digits.length + 1 + most.digits.length + 1 := by
    simp
    omega
  rw [ReadsBraces, htext, hlength]
  rcases least.read 1 (most.digits ++ '}' :: rest) (show ','.isDigit = false by decide) with
    ⟨hleast, -⟩ | ⟨-, e, he⟩
  · have hcomma := readBraces_comma hleast List.drop_left (most.digits_ne _)
    rcases most.read (least.digits.length + 2) rest
      (show '}'.isDigit = false by decide) with ⟨hmost, hsmall⟩ | ⟨-, e, he⟩
    · cases hends : Extent.ofEnds least.value most.value with
      | ok occurs =>
        have hread := readBraces_two hleast List.drop_left hmost List.drop_left hends
        exact .inl ⟨occurs, hread, of_ofEnds hends hsmall⟩
      | error =>
        refine .inr ⟨⟨.quantifierDisordered, 0⟩, ?_⟩
        rw [hcomma, hmost]
        simp only [bind, Except.bind, List.drop_left, hends]
        rfl
    · exact .inr ⟨e, by rw [hcomma, he]; rfl⟩
  · exact .inr ⟨e, by simp [readBraces, he]; rfl⟩

theorem readsQuantifier_of_braces {q : Quantifier} {more rest : List Char}
    (h : ReadsBraces q.counts more rest) : ReadsQuantifier space q '{' more rest := by
  unfold ReadsQuantifier Lexeme.read
  rcases h with ⟨occurs, hread, hleast, hcounts⟩ | ⟨e, he⟩
  · exact .inl ⟨occurs, .inl (by simp [hread]), hleast, hcounts⟩
  · exact .inr ⟨e, 0, by simp [he]⟩

/-- The text of a quantifier. -/
theorem Quantifier.read (space : CharSet) (q : Quantifier) : ∃ first more, q.text = first :: more ∧
    ∀ rest, ReadsQuantifier space q first more rest := by
  cases q with
  | star =>
    refine ⟨'*', [], rfl, fun rest => .inl ⟨.any, .inl rfl, by decide, ?_⟩⟩
    ext k
    simp [counts]
  | plus =>
    refine ⟨'+', [], rfl, fun rest => .inl ⟨.atLeast 1, .inl rfl, by decide, ?_⟩⟩
    ext k
    simp [Extent.Admits, Extent.atLeast, counts, unbounded]
  | optional =>
    refine ⟨'?', [], rfl, fun rest => .inl ⟨.optional, .inr ⟨rfl, rfl⟩, by decide, ?_⟩⟩
    ext k
    simp [counts]
  | exactly n =>
    exact ⟨'{', n.digits ++ ['}'], rfl, fun rest => readsQuantifier_of_braces (n.readExactly rest)⟩
  | atLeast n =>
    exact ⟨'{', n.digits ++ [',', '}'], rfl,
      fun rest => readsQuantifier_of_braces (n.readAtLeast rest)⟩
  | between least most =>
    exact ⟨'{', least.digits ++ ',' :: most.digits ++ ['}'], rfl,
      fun rest => readsQuantifier_of_braces (least.readBetween most rest)⟩

/-! ## Groups -/

theorem readOpening_of_ne {rest : List Char} (h : ∀ d ∈ rest.head?, d ≠ '?') :
    readOpening rest = (.group, 0) := by
  unfold readOpening
  split
  any_goals exact absurd rfl (h '?' rfl)
  rfl

/-- The opening of a group with a name. A name does not begin with a character that makes the
opening one of a lookbehind. -/
theorem readOpening_named {rest : List Char} (hlength : nameLength rest ≠ 0)
    (hend : (rest.drop (nameLength rest)).head? = some '>') :
    readOpening ('?' :: '<' :: rest) = (.group, 2 + nameLength rest + 1) := by
  cases rest with
  | nil => exact absurd rfl hlength
  | cons first more =>
    have hfirst : isNameStart first = true := by
      by_contra hne
      rw [nameLength, if_neg hne] at hlength
      exact hlength rfl
    have hequals : first ≠ '=' := by
      rintro rfl
      exact absurd hfirst (by decide +kernel)
    have hmark : first ≠ '!' := by
      rintro rfl
      exact absurd hfirst (by decide +kernel)
    unfold readOpening
    split
    next heq => simp at heq
    next heq => simp at heq
    next heq => simp at heq
    next heq => simp [hequals] at heq
    next heq => simp [hmark] at heq
    next heq =>
      obtain rfl : first :: more = _ := by simpa using heq
      exact if_pos ⟨hlength, hend⟩
    next h heq => exact absurd (List.cons.inj heq).2.symm (h _)
    next h => exact absurd rfl (h _)

/-- The opening of a group behind its parenthesis. -/
theorem GroupOpening.read (opening : GroupOpening) {rest : List Char}
    (hrest : rest.head? ≠ some '?') :
    readOpening (opening.text ++ rest) = (.group, opening.text.length) := by
  cases opening with
  | capturing => exact readOpening_of_ne fun d hd heq => hrest (heq ▸ hd)
  | nonCapturing => rfl
  | named first more hfirst hmore =>
    have hlength : nameLength (first :: more ++ '>' :: rest) = 1 + more.length := by
      have hend : isNamePart '>' = false := by decide +kernel
      rw [List.cons_append, nameLength, if_pos hfirst, List.takeWhile_append_of_pos hmore,
        List.takeWhile_cons_of_neg (by simp [hend]), List.append_nil]
    have hdrop : (first :: more ++ '>' :: rest).drop (1 + more.length) = '>' :: rest := by
      rw [Nat.add_comm]
      exact List.drop_left
    have htext : (named first more hfirst hmore).text ++ rest =
        '?' :: '<' :: (first :: more ++ '>' :: rest) := by simp [text]
    rw [htext, readOpening_named (by omega) (by rw [hlength, hdrop]; rfl), hlength]
    simp [text]
    omega

end Exemplar.Grammar
