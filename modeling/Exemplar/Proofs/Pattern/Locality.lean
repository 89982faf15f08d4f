import Exemplar.Proofs.Grammar.Lexing
import Mathlib.Data.List.TakeWhile

/-!
# Tokens do not depend on what follows

What has been read as a token is read so whatever comes behind the text, if it is well formed. There
are two tokens whose end can be moved: the escape of the null character must not be followed by a
digit, and an opening parenthesis must not be followed by a question mark.

## Main definitions

* `Lexeme.IsSound`: the lexeme is well formed
* `Harmless`: a text that does not change what is read before it

## Main results

* `Lexeme.read_append`: a lexeme with more text behind it
* `tokens_append`: the tokens of a text with more text behind it
-/

namespace Exemplar.Pattern

variable {space : CharSet} {rest suffix : List Char} {n : Nat}

/-- The lexeme is well formed. -/
def Lexeme.IsSound : Lexeme → Prop
  | .broken _ | .brokenTimes _ => False
  | _ => True

/-- The text does not begin with a digit or a question mark. -/
def Harmless (suffix : List Char) : Prop :=
  ∀ d ∈ suffix.head?, d.isDigit = false ∧ d ≠ '?'

/-! ## Quantifiers -/

/-- A number is read from the digits in front, wherever they stand and whatever comes behind them.
-/
theorem of_readDecimal {offset value : Nat} (h : readDecimal offset rest = .ok (value, n)) :
    n = (rest.takeWhile Char.isDigit).length ∧ ∀ offset' rest',
      rest'.takeWhile Char.isDigit = rest.takeWhile Char.isDigit →
        readDecimal offset' rest' = .ok (value, n) := by
  unfold readDecimal at h
  split at h
  · cases h
  next hdigits =>
    split at h
    · cases h
    next hsmall =>
      obtain ⟨rfl, rfl⟩ := Prod.mk.inj (Except.ok.inj h)
      refine ⟨rfl, fun offset' rest' heq => ?_⟩
      unfold readDecimal
      rw [heq]
      split
      next hnil => exact absurd hnil hdigits
      next => rw [if_neg hsmall]

/-- A number that ends before the text does. -/
theorem readDecimal_append {offset value : Nat} (h : readDecimal offset rest = .ok (value, n))
    (hn : n < rest.length) : readDecimal offset (rest ++ suffix) = .ok (value, n) := by
  obtain ⟨rfl, hread⟩ := of_readDecimal h
  refine hread offset _ ?_
  rw [List.takeWhile_append, if_neg (Nat.ne_of_lt hn)]

theorem lt_length_of_drop_eq {l after : List Char} {c : Char} (h : l.drop n = c :: after) :
    n < l.length := by
  by_contra hle
  rw [List.drop_of_length_le (Nat.le_of_not_lt hle)] at h
  cases h

theorem drop_append_of_drop_eq {l after : List Char} {c : Char} (h : l.drop n = c :: after) :
    (l ++ suffix).drop n = c :: (after ++ suffix) := by
  rw [List.drop_append_of_le_length (lt_length_of_drop_eq h).le, h, List.cons_append]

theorem length_of_drop_eq {l after : List Char} {c : Char} (h : l.drop n = c :: after) :
    l.length = n + 1 + after.length := by
  have hlt := lt_length_of_drop_eq h
  have hlength := congrArg List.length h
  rw [List.length_drop, List.length_cons] at hlength
  omega

/-- A quantifier in braces. -/
theorem readBraces_append {occurs : Extent} (h : readBraces rest = .ok (occurs, n))
    (suffix : List Char) :
    n ≤ rest.length ∧ readBraces (rest ++ suffix) = .ok (occurs, n) := by
  simp only [readBraces, bind_eq_ok] at h
  obtain ⟨⟨least, taken⟩, hleast, h⟩ := h
  split at h
  next after hafter =>
    have hlt := lt_length_of_drop_eq hafter
    obtain ⟨rfl, rfl⟩ := Prod.mk.inj (Except.ok.inj h)
    exact ⟨hlt, Grammar.readBraces_one (readDecimal_append hleast hlt)
      (drop_append_of_drop_eq hafter)⟩
  next after hafter =>
    have hlt := lt_length_of_drop_eq hafter
    have hlength := length_of_drop_eq hafter
    rw [List.length_cons] at hlength
    obtain ⟨rfl, rfl⟩ := Prod.mk.inj (Except.ok.inj h)
    exact ⟨by omega, Grammar.readBraces_open (readDecimal_append hleast hlt)
      (drop_append_of_drop_eq hafter)⟩
  next more _ hafter =>
    have hlt := lt_length_of_drop_eq hafter
    have hlength := length_of_drop_eq hafter
    simp only [bind_eq_ok] at h
    obtain ⟨⟨most, takenMost⟩, hmost, h⟩ := h
    split at h
    next after' hafter' =>
      have hlt' := lt_length_of_drop_eq hafter'
      split at h
      next e hends =>
        obtain ⟨rfl, rfl⟩ := Prod.mk.inj (Except.ok.inj h)
        exact ⟨by omega, Grammar.readBraces_two (readDecimal_append hleast hlt)
          (drop_append_of_drop_eq hafter) (readDecimal_append hmost hlt')
          (drop_append_of_drop_eq hafter') hends⟩
      · simp only [throw_eq_ok] at h
    · simp only [throw_eq_ok] at h
  · simp only [throw_eq_ok] at h

/-! ## Escapes and openings -/

/-- The digits of a code. All of them have been there, so none is taken from the suffix. -/
theorem readHex_append {width : Nat} {malformed : Reason} {value : Char}
    (h : Escape.readHex width malformed rest = .ok (value, n)) :
    n ≤ rest.length ∧ Escape.readHex width malformed (rest ++ suffix) = .ok (value, n) := by
  unfold Escape.readHex at h
  dsimp only at h
  split at h
  · cases h
  next number hnumber =>
    split at h
    · cases h
    next c hc =>
      obtain ⟨rfl, rfl⟩ := Prod.mk.inj (Except.ok.inj h)
      have hwidth : (rest.take width).length = width := by
        by_contra hne
        rw [if_neg hne] at hnumber
        cases hnumber
      have hle : width ≤ rest.length := by
        rw [List.length_take] at hwidth
        omega
      refine ⟨hle, ?_⟩
      unfold Escape.readHex
      rw [List.take_append_of_le_length hle]
      dsimp only
      rw [hnumber]
      dsimp only
      rw [hc]

/-- The escape of a character, which is not to be followed by a digit. The null character would
otherwise be misread with a digit of the suffix. -/
theorem readChar_append {c value : Char} (h : Escape.readChar c rest = .ok (value, n))
    (hsuffix : rest = [] → ∀ d ∈ suffix.head?, d.isDigit = false) :
    n ≤ rest.length ∧ Escape.readChar c (rest ++ suffix) = .ok (value, n) := by
  unfold Escape.readChar at h ⊢
  split at h
  · exact ⟨(Prod.mk.inj (Except.ok.inj h)).2 ▸ Nat.zero_le _, h⟩
  · exact ⟨(Prod.mk.inj (Except.ok.inj h)).2 ▸ Nat.zero_le _, h⟩
  · exact ⟨(Prod.mk.inj (Except.ok.inj h)).2 ▸ Nat.zero_le _, h⟩
  · exact ⟨(Prod.mk.inj (Except.ok.inj h)).2 ▸ Nat.zero_le _, h⟩
  · exact ⟨(Prod.mk.inj (Except.ok.inj h)).2 ▸ Nat.zero_le _, h⟩
  · split at h
    · cases h
    next hdigit =>
      refine ⟨(Prod.mk.inj (Except.ok.inj h)).2 ▸ Nat.zero_le _, ?_⟩
      rw [if_neg, h]
      cases rest with
      | nil =>
        rw [List.nil_append]
        cases hhead : suffix.head? with
        | none => simp
        | some d => simp [hsuffix rfl d hhead]
      | cons c rest => exact hdigit
  · cases rest with
    | nil => cases h
    | cons letter rest =>
      rw [List.cons_append, List.head?_cons]
      rw [List.head?_cons] at h
      split at h
      next hletter =>
        refine ⟨?_, h⟩
        rw [← (Prod.mk.inj (Except.ok.inj h)).2]
        exact Nat.succ_le_succ (Nat.zero_le _)
      · cases h
  · exact readHex_append h
  · exact readHex_append h
  · exact ⟨(Prod.mk.inj (Except.ok.inj h)).2 ▸ Nat.zero_le _, h⟩

/-- An escape outside of brackets. What is not offered is told by the first character, so the suffix
makes no difference. -/
theorem readEscape_append {cls : CharClass} (h : Escape.read space rest = .ok (cls, n))
    (hsuffix : ∀ d ∈ suffix.head?, d.isDigit = false) :
    n ≤ rest.length ∧ Escape.read space (rest ++ suffix) = .ok (cls, n) := by
  cases rest with
  | nil => cases h
  | cons c rest =>
    rw [List.cons_append]
    rw [Escape.read] at h ⊢
    split at h
    · cases h
    next hboundary =>
      rw [if_neg hboundary]
      split at h
      · cases h
      next hreference =>
        rw [if_neg hreference]
        split at h
        · cases h
        next hname =>
          rw [if_neg hname]
          split at h
          next =>
            rw [← h]
            exact ⟨(Prod.mk.inj (Except.ok.inj h)).2 ▸ Nat.succ_le_succ (Nat.zero_le _), rfl⟩
          next =>
            rw [← h]
            exact ⟨(Prod.mk.inj (Except.ok.inj h)).2 ▸ Nat.succ_le_succ (Nat.zero_le _), rfl⟩
          next =>
            obtain ⟨⟨value, taken⟩, hread, h⟩ := map_eq_ok.mp h
            obtain ⟨hle, hread'⟩ := readChar_append hread fun _ => hsuffix
            obtain ⟨rfl, rfl⟩ := Prod.mk.inj h
            exact ⟨Nat.succ_le_succ hle, by rw [hread']; rfl⟩

/-- A name that ends inside the text is not longer with more text behind it. -/
theorem nameLength_append (h : nameLength rest < rest.length) :
    nameLength (rest ++ suffix) = nameLength rest := by
  cases rest with
  | nil => cases h
  | cons c rest =>
    rw [nameLength, List.length_cons] at h
    rw [List.cons_append, nameLength, nameLength]
    split at h
    next hstart =>
      rw [if_pos hstart, if_pos hstart, List.takeWhile_append, if_neg]
      omega
    next hstart => rw [if_neg hstart, if_neg hstart]

/-- The opening of a group or of a lookaround, which is not to be followed by a question mark. Two
or three characters tell what most openings are. -/
theorem readOpening_append {l : Lexeme} (h : readOpening rest = (l, n)) (hl : l.IsSound)
    (hsuffix : ∀ d ∈ suffix.head?, d ≠ '?') :
    n ≤ rest.length ∧ readOpening (rest ++ suffix) = (l, n) := by
  unfold readOpening at h
  split at h
  iterate 5
    obtain ⟨rfl, rfl⟩ := Prod.mk.inj h
    exact ⟨by simp, rfl⟩
  next rest _ _ =>
    dsimp only at h
    split at h
    next hname =>
      obtain ⟨rfl, rfl⟩ := Prod.mk.inj h
      have hlt : nameLength rest < rest.length := by
        by_contra hge
        rw [List.drop_of_length_le (Nat.le_of_not_lt hge)] at hname
        cases hname.2
      have hsame : nameLength (rest ++ suffix) = nameLength rest := nameLength_append hlt
      refine ⟨by simp only [List.length_cons]; omega, ?_⟩
      rw [List.cons_append, List.cons_append, ← hsame]
      refine Grammar.readOpening_named (by rw [hsame]; exact hname.1) ?_
      rw [hsame, List.drop_append_of_le_length hlt.le, List.head?_append, hname.2]
      rfl
    next =>
      obtain ⟨rfl, -⟩ := Prod.mk.inj h
      exact hl.elim
  · obtain ⟨rfl, -⟩ := Prod.mk.inj h
    exact hl.elim
  next hquestion =>
    obtain ⟨rfl, rfl⟩ := Prod.mk.inj h
    refine ⟨Nat.zero_le _, Grammar.readOpening_of_ne fun d hd => ?_⟩
    cases rest with
    | nil => exact hsuffix d hd
    | cons c rest =>
      rintro rfl
      rw [List.cons_append, List.head?_cons, Option.mem_some_iff] at hd
      exact hquestion rest (by rw [hd])

/-! ## Brackets -/

section Brackets

open Exemplar.Pattern.Bracket Exemplar.Grammar

/-- An item between brackets, which is not the end of the text. As there is more of the text, the
suffix does not follow an escape. -/
theorem readItem_append {c : Char} {item : Bracket.Item} (h : readItem space c rest = .ok (item, n))
    (hn : n < rest.length) : readItem space c (rest ++ suffix) = .ok (item, n) := by
  rw [readItem.eq_def] at h ⊢
  split at h
  next hc => rw [if_pos hc, h]
  next hc =>
    rw [if_neg hc]
    cases rest with
    | nil => cases h
    | cons letter rest =>
      rw [List.cons_append]
      dsimp only at h ⊢
      split at h
      next hb => rw [if_pos hb, h]
      next hb =>
        rw [if_neg hb]
        split at h
        · cases h
        next hB =>
          rw [if_neg hB]
          split at h
          · cases h
          next hdigit =>
            rw [if_neg hdigit]
            split at h
            · exact h
            · exact h
            · obtain ⟨⟨value, taken⟩, hread, h⟩ := map_eq_ok.mp h
              obtain ⟨rfl, rfl⟩ := Prod.mk.inj h
              rw [List.length_cons] at hn
              rw [(readChar_append hread fun hnil => by rw [hnil] at hn; simp at hn).2]
              rfl

/-- The items end with a closing bracket, so there is something to read, and not just a hyphen. -/
theorem of_readItems {offset stop : Nat} {items : List Bracket.Item}
    (h : readItems space offset rest = .ok (items, stop)) : rest ≠ [] ∧ rest ≠ ['-'] := by
  constructor
  · rintro rfl
    rw [readItems] at h
    cases h
  · rintro rfl
    rw [readItems_single (by decide) rfl (show ([] : List Char).drop 0 = [] from rfl) (by simp),
      readItems] at h
    cases h

/-- The items up to the closing bracket. By induction on how they are read, where only three ways
lead to success. -/
theorem readItems_append {offset stop : Nat} {items : List Bracket.Item}
    (h : readItems space offset rest = .ok (items, stop)) (suffix : List Char) :
    stop ≤ offset + rest.length ∧ readItems space offset (rest ++ suffix) = .ok (items, stop) := by
  fun_induction readItems space offset rest generalizing items stop with
  | case1 => cases h
  | case2 offset rest =>
    obtain ⟨rfl, rfl⟩ := Prod.mk.inj (Except.ok.inj h)
    refine ⟨by simp, ?_⟩
    rw [List.cons_append, readItems, if_pos rfl]
  | case3 => cases h
  | case4 offset c rest hc item taken hitem more hrest ih =>
    obtain ⟨⟨items', stop'⟩, hread, h⟩ := map_eq_ok.mp h
    obtain ⟨rfl, rfl⟩ := Prod.mk.inj h
    obtain ⟨hle, hread'⟩ := ih hread
    have hlt := lt_length_of_drop_eq hrest
    have hlength := length_of_drop_eq hrest
    refine ⟨by rw [List.length_cons] at hle ⊢; omega, ?_⟩
    have hdrop : (rest ++ suffix).drop taken = '-' :: (']' :: more ++ suffix) :=
      drop_append_of_drop_eq hrest
    rw [List.cons_append, readItems_single hc (readItem_append hitem hlt) hdrop (by simp)]
    exact map_eq_ok.mpr ⟨_, hread', rfl⟩
  | case5 => cases h
  | case6 => cases h
  | case7 offset c rest hc item taken hitem last more hrest hlast lastItem lastTaken hlastItem range
      hrange ih =>
    obtain ⟨⟨items', stop'⟩, hread, h⟩ := map_eq_ok.mp h
    obtain ⟨rfl, rfl⟩ := Prod.mk.inj h
    obtain ⟨hle, hread'⟩ := ih hread
    have hlt := lt_length_of_drop_eq hrest
    have hlength := length_of_drop_eq hrest
    rw [List.length_cons] at hlength
    have hlt' : lastTaken < more.length := by
      by_contra hge
      exact (of_readItems hread).1 (List.drop_of_length_le (Nat.le_of_not_lt hge))
    rw [List.length_drop] at hle
    refine ⟨by rw [List.length_cons]; omega, ?_⟩
    have hdrop : (rest ++ suffix).drop taken = '-' :: last :: (more ++ suffix) :=
      drop_append_of_drop_eq hrest
    rw [List.cons_append, readItems_range hc (readItem_append hitem hlt) hdrop hlast,
      readItem_append hlastItem hlt']
    dsimp only
    rw [hrange]
    dsimp only
    rw [List.drop_append_of_le_length (Nat.le_of_lt hlt'), hread']
    rfl
  | case8 offset c rest hc item taken hitem hrest ih =>
    obtain ⟨⟨items', stop'⟩, hread, h⟩ := map_eq_ok.mp h
    obtain ⟨rfl, rfl⟩ := Prod.mk.inj h
    obtain ⟨hle, hread'⟩ := ih hread
    obtain ⟨hne, hne'⟩ := of_readItems hread
    have hlt : taken < rest.length := by
      by_contra hge
      exact hne (List.drop_of_length_le (Nat.le_of_not_lt hge))
    rw [List.length_drop] at hle
    refine ⟨by rw [List.length_cons]; omega, ?_⟩
    have hdrop : (rest ++ suffix).drop taken = rest.drop taken ++ suffix :=
      List.drop_append_of_le_length (Nat.le_of_lt hlt)
    rw [List.cons_append, readItems_single hc (readItem_append hitem hlt) hdrop, hread']
    · rfl
    · -- There is no hyphen between two characters, with more text behind it either.
      intro last more heq
      cases hafter : rest.drop taken with
      | nil => exact absurd hafter hne
      | cons a after =>
        rw [hafter, List.cons_append, List.cons.injEq] at heq
        obtain ⟨rfl, heq⟩ := heq
        cases after with
        | nil => exact absurd hafter hne'
        | cons b after => exact (hrest b after hafter).elim

/-- A class in brackets. -/
theorem readBracket_append {cls : CharClass} (h : Bracket.read space rest = .ok (cls, n))
    (suffix : List Char) :
    n ≤ rest.length ∧ Bracket.read space (rest ++ suffix) = .ok (cls, n) := by
  cases rest with
  | nil =>
    simp only [Bracket.read, bind_eq_ok] at h
    obtain ⟨⟨items, stop⟩, hitems, -⟩ := h
    exact absurd rfl (of_readItems hitems).1
  | cons c rest =>
    have hdrop : ∀ {k}, k ≤ 1 → (c :: rest ++ suffix).drop k = (c :: rest).drop k ++ suffix :=
      fun hk => List.drop_append_of_le_length (by rw [List.length_cons]; omega)
    have hstart : (if (c :: rest).head? = some '^' then 1 else 0) ≤ 1 := by
      split <;> decide
    have hhead : (c :: rest ++ suffix).head? = (c :: rest).head? := rfl
    simp only [Bracket.read, bind_eq_ok, check_eq_ok, pure_eq_ok] at h ⊢
    obtain ⟨⟨items, stop⟩, hitems, hempty, hcls, heq⟩ := h
    obtain ⟨hle, hread⟩ := readItems_append hitems suffix
    obtain ⟨rfl, rfl⟩ := Prod.mk.inj heq
    rw [List.length_drop, List.length_cons] at hle
    refine ⟨show stop - 1 ≤ _ by rw [List.length_cons]; omega, (items, stop), ?_, hempty, hcls, rfl⟩
    rw [hhead, hdrop hstart]
    exact hread

end Brackets

/-! ## Lexemes and tokens -/

/-- A lexeme that is well formed is read from more text in the same way. Most lexemes are told by
their first character alone. -/
theorem Lexeme.read_append {c : Char} {l : Lexeme} (h : Lexeme.read space c rest = (l, n))
    (hl : l.IsSound) (hsuffix : Harmless suffix) :
    n ≤ rest.length ∧ Lexeme.read space c (rest ++ suffix) = (l, n) := by
  unfold Lexeme.read at h ⊢
  split at h
  any_goals exact ⟨(Prod.mk.inj h).2 ▸ Nat.zero_le _, h⟩
  · exact readOpening_append h hl fun d hd => (hsuffix d hd).2
  · split at h
    next occurs taken hread =>
      obtain ⟨rfl, rfl⟩ := Prod.mk.inj h
      obtain ⟨hle, hread'⟩ := readBraces_append hread suffix
      exact ⟨hle, by simp only [hread']⟩
    next =>
      obtain ⟨rfl, -⟩ := Prod.mk.inj h
      exact hl.elim
  · split at h
    next cls taken hread =>
      obtain ⟨rfl, rfl⟩ := Prod.mk.inj h
      obtain ⟨hle, hread'⟩ := readBracket_append hread suffix
      exact ⟨hle, by simp only [hread']⟩
    next =>
      obtain ⟨rfl, -⟩ := Prod.mk.inj h
      exact hl.elim
  · split at h
    next cls taken hread =>
      obtain ⟨rfl, rfl⟩ := Prod.mk.inj h
      obtain ⟨hle, hread'⟩ := readEscape_append hread fun d hd => (hsuffix d hd).1
      exact ⟨hle, by simp only [hread']⟩
    next =>
      obtain ⟨rfl, -⟩ := Prod.mk.inj h
      exact hl.elim

/-- The tokens of a text that is well formed, with more text behind it. -/
theorem tokens_append {text : List Char} (h : ∀ t ∈ tokens space text, t.lexeme.IsSound)
    (hsuffix : Harmless suffix) :
    tokens space (text ++ suffix) = tokens space text ++ tokens space suffix := by
  fun_induction tokens space text with
  | case1 => rfl
  | case2 c rest lexeme taken hread ih =>
    rw [List.forall_mem_cons] at h
    obtain ⟨hle, hread'⟩ := Lexeme.read_append hread h.1 hsuffix
    rw [List.cons_append, tokens, hread', List.cons_append]
    dsimp only
    rw [List.drop_append_of_le_length hle, List.take_append_of_le_length hle, ih h.2]

end Exemplar.Pattern
