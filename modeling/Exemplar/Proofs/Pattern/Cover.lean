import Exemplar.Proofs.Grammar.Completeness

/-!
# Tokens stay inside the text

No lexeme takes more characters than there are, and what is wrong with a malformed one is met inside
the text or at its end. So the tokens of a text are pieces of it that follow each other up to its
end, none of them empty. Where a lexeme is read by a loop, each round of the loop takes a character
at least.

## Main definitions

* `Lexeme.error?`: what is wrong with a malformed lexeme
* `Token.Fit`: the tokens are pieces of a text, with no error beyond its end

## Main results

* `readItems_cons`: each round of reading the items between brackets takes a character
* `Lexeme.taken_le_length`: a lexeme takes no more than there is
* `Lexeme.of_error?`: what is wrong with a lexeme is met inside the text
* `tokens_flatMap_text`, `fit_tokens`: the tokens of a text
-/

namespace Exemplar.Pattern

variable {space : CharSet} {rest : List Char} {offset n : Nat} {c : Char} {e : Error}

/-! ## Numbers and names -/

/-- A number takes its digits, one at least. -/
theorem taken_of_readDecimal {value : Nat} (h : readDecimal offset rest = .ok (value, n)) :
    n = (rest.takeWhile Char.isDigit).length ∧ 0 < n ∧ n ≤ rest.length := by
  obtain ⟨rfl, -⟩ := of_readDecimal h
  refine ⟨rfl, List.length_pos_iff.mpr fun hnil => ?_, (List.takeWhile_sublist _).length_le⟩
  rw [readDecimal, hnil] at h
  cases h

/-- A number that is missing is missed where it should begin. -/
theorem position_of_readDecimal (h : readDecimal offset rest = .error e) : e.position = offset := by
  unfold readDecimal at h
  split at h
  · obtain rfl := Except.error.inj h
    rfl
  · split at h
    · obtain rfl := Except.error.inj h
      rfl
    · cases h

/-- An error in braces is met inside the text. The second number is sought behind a comma, which
stands in it. -/
theorem position_le_of_readBraces (h : readBraces rest = .error e) :
    e.position ≤ 1 + rest.length := by
  simp only [readBraces, bind_eq_error] at h
  rcases h with h | ⟨⟨least, taken⟩, hleast, h⟩
  · rw [position_of_readDecimal h]
    omega
  · obtain ⟨-, -, hle⟩ := taken_of_readDecimal hleast
    split at h
    · cases h
    · cases h
    next more _ hmore =>
      have hlength := length_of_drop_eq hmore
      simp only [bind_eq_error] at h
      rcases h with h | ⟨⟨most, takenMost⟩, hmost, h⟩
      · rw [position_of_readDecimal h]
        omega
      · obtain ⟨-, -, hle'⟩ := taken_of_readDecimal hmost
        split at h
        · split at h
          · cases h
          · obtain rfl := Except.error.inj h
            exact Nat.zero_le _
        · obtain rfl := Except.error.inj h
          show taken + 2 + takenMost ≤ 1 + rest.length
          omega
    · obtain rfl := Except.error.inj h
      show taken + 1 ≤ 1 + rest.length
      omega

/-- A name takes no more than there is. -/
theorem nameLength_le (rest : List Char) : nameLength rest ≤ rest.length := by
  cases rest with
  | nil => exact le_rfl
  | cons c rest =>
    have hle : (rest.takeWhile isNamePart).length ≤ rest.length :=
      (List.takeWhile_sublist isNamePart).length_le
    rw [nameLength, List.length_cons]
    split
    · omega
    · exact Nat.zero_le _

/-- What is wrong with a malformed lexeme. -/
def Lexeme.error? : Lexeme → Option Error
  | .broken e | .brokenTimes e => some e
  | _ => none

/-- An opening that is refused takes nothing, and is refused inside the text. -/
theorem of_readOpening_error {l : Lexeme} (h : readOpening rest = (l, n)) (he : l.error? = some e) :
    n = 0 ∧ e.position ≤ 1 + rest.length := by
  unfold readOpening at h
  split at h
  case h_6 =>
    dsimp only at h
    split at h
    · obtain ⟨rfl, -⟩ := Prod.mk.inj h
      cases he
    · obtain ⟨rfl, rfl⟩ := Prod.mk.inj h
      obtain rfl := Option.some.inj he
      refine ⟨rfl, ?_⟩
      simp only [List.length_cons]
      omega
  case h_7 =>
    obtain ⟨rfl, rfl⟩ := Prod.mk.inj h
    obtain rfl := Option.some.inj he
    exact ⟨rfl, Nat.zero_le _⟩
  all_goals
    obtain ⟨rfl, -⟩ := Prod.mk.inj h
    cases he

/-! ## Brackets -/

section Brackets

open Exemplar.Pattern.Bracket

theorem taken_le_of_readItem {item : Item} (hc : c ≠ ']')
    (h : readItem space c rest = .ok (item, n)) : n ≤ rest.length := by
  obtain ⟨more, after, rfl, rfl, -⟩ := Grammar.of_readItem hc h
  rw [List.length_append]
  exact Nat.le_add_right _ _

theorem position_le_of_locate (offset : Nat) (reason : Reason) :
    (locate offset reason).position ≤ offset := by
  unfold locate
  split
  · exact Nat.zero_le _
  · exact le_rfl

/-- A range that is refused is refused where it begins. -/
theorem position_of_rangeOf {first last : Item} (h : rangeOf offset first last = .error e) :
    e.position = offset := by
  unfold rangeOf at h
  split at h
  · split at h
    · obtain rfl := Except.error.inj h
      rfl
    · cases h
  · obtain rfl := Except.error.inj h
    rfl

/-- A round of reading the items either meets an error or takes characters for an item, and the rest
is read from behind them. A hyphen behind the item makes it the beginning of a range, unless the
bracket ends there. -/
theorem readItems_cons (hc : c ≠ ']') :
    (∃ e, readItems space offset (c :: rest) = .error e) ∨
      ∃ item taken, 0 < taken ∧ taken ≤ (c :: rest).length ∧
        readItems space offset (c :: rest) =
          (readItems space (offset + taken) ((c :: rest).drop taken)).map
            fun (items, stop) => (item :: items, stop) := by
  cases hitem : readItem space c rest with
  | error reason => exact .inl ⟨_, Grammar.readItems_error hc hitem⟩
  | ok result =>
    obtain ⟨item, taken⟩ := result
    have hle := taken_le_of_readItem hc hitem
    by_cases hrange : ∃ last more, rest.drop taken = '-' :: last :: more ∧ last ≠ ']'
    · obtain ⟨last, more, hmore, hlast⟩ := hrange
      have hlength := length_of_drop_eq hmore
      rw [List.length_cons] at hlength
      rw [Grammar.readItems_range hc hitem hmore hlast]
      cases hlastItem : readItem space last more with
      | error reason => exact .inl ⟨_, rfl⟩
      | ok lastResult =>
        obtain ⟨lastItem, lastTaken⟩ := lastResult
        have hle' := taken_le_of_readItem hlast hlastItem
        dsimp only
        cases hends : rangeOf offset item lastItem with
        | error e => exact .inl ⟨_, rfl⟩
        | ok range =>
          refine .inr ⟨range, taken + 2 + lastTaken + 1, Nat.succ_pos _, ?_, ?_⟩
          · rw [List.length_cons]
            omega
          · have hdrop : (c :: rest).drop (taken + 2 + lastTaken + 1) = more.drop lastTaken := by
              rw [List.drop_succ_cons, ← List.drop_drop, ← List.drop_drop, hmore]
              rfl
            rw [hdrop, show offset + (taken + 2 + lastTaken + 1) =
              offset + 1 + taken + 2 + lastTaken by omega]
    · have hsingle : readItems space offset (c :: rest) =
          (readItems space (offset + 1 + taken) (rest.drop taken)).map
            fun (items, stop) => (item :: items, stop) :=
        Grammar.readItems_single hc hitem rfl fun last more hmore =>
          by_contra fun hlast => hrange ⟨last, more, hmore, hlast⟩
      refine .inr ⟨item, taken + 1, Nat.succ_pos _, Nat.succ_le_succ hle, ?_⟩
      rw [hsingle, List.drop_succ_cons, show offset + (taken + 1) = offset + 1 + taken by omega]

/-- An error in the items is met inside the text: at the first item, or behind it. -/
theorem position_le_of_readItems (h : readItems space offset rest = .error e) :
    e.position ≤ offset + rest.length := by
  fun_induction readItems space offset rest with
  | case1 =>
    obtain rfl := Except.error.inj h
    exact Nat.zero_le _
  | case2 => cases h
  | case3 offset c rest hc reason hitem =>
    obtain rfl := Except.error.inj h
    exact (position_le_of_locate offset reason).trans (Nat.le_add_right _ _)
  | case4 offset c rest hc item taken hitem more hrest ih =>
    have hlength := length_of_drop_eq hrest
    have := ih (map_eq_error.mp h)
    simp only [List.length_cons] at hlength this ⊢
    omega
  | case5 offset c rest hc item taken hitem last more hrest hlast reason hlastItem =>
    have hlength := length_of_drop_eq hrest
    rw [List.length_cons] at hlength
    obtain rfl := Except.error.inj h
    have := position_le_of_locate (offset + 1 + taken + 1) reason
    rw [List.length_cons]
    omega
  | case6 offset c rest hc item taken hitem last more hrest hlast lastItem lastTaken hlastItem e'
      hrange =>
    obtain rfl := Except.error.inj h
    rw [position_of_rangeOf hrange]
    exact Nat.le_add_right _ _
  | case7 offset c rest hc item taken hitem last more hrest hlast lastItem lastTaken hlastItem range
      hrange ih =>
    have hlength := length_of_drop_eq hrest
    rw [List.length_cons] at hlength
    have hle := taken_le_of_readItem hlast hlastItem
    have := ih (map_eq_error.mp h)
    rw [List.length_drop] at this
    rw [List.length_cons]
    omega
  | case8 offset c rest hc item taken hitem hrest ih =>
    have hle := taken_le_of_readItem hc hitem
    have := ih (map_eq_error.mp h)
    rw [List.length_drop] at this
    rw [List.length_cons]
    omega

/-- An error in a bracket expression is met inside the text. -/
theorem position_le_of_readBracket (h : Bracket.read space rest = .error e) :
    e.position ≤ 1 + rest.length := by
  simp only [Bracket.read, bind_eq_error] at h
  rcases h with h | ⟨⟨items, stop⟩, -, h⟩
  · have hle := position_le_of_readItems h
    rw [List.length_drop] at hle
    split at hle
    next hhead =>
      have hpos : 0 < rest.length := by
        cases rest with
        | nil => cases hhead
        | cons => exact Nat.succ_pos _
      omega
    next => omega
  · simp only [check_eq_error] at h
    rcases h with ⟨-, rfl⟩ | ⟨-, ⟨-, rfl⟩ | ⟨-, h⟩⟩
    · exact Nat.zero_le _
    · exact Nat.zero_le _
    · cases h

end Brackets

/-! ## Lexemes -/

/-- What is wrong with a lexeme is met inside the text or at its end, and nothing is taken behind
its first character. -/
theorem Lexeme.of_error? {l : Lexeme} (h : Lexeme.read space c rest = (l, n))
    (he : l.error? = some e) : n = 0 ∧ e.position ≤ 1 + rest.length := by
  unfold Lexeme.read at h
  split at h
  any_goals
    obtain ⟨rfl, -⟩ := Prod.mk.inj h
    cases he
  · exact of_readOpening_error h he
  · split at h
    · obtain ⟨rfl, -⟩ := Prod.mk.inj h
      cases he
    next hbraces =>
      obtain ⟨rfl, rfl⟩ := Prod.mk.inj h
      obtain rfl := Option.some.inj he
      exact ⟨rfl, position_le_of_readBraces hbraces⟩
  · split at h
    · obtain ⟨rfl, -⟩ := Prod.mk.inj h
      cases he
    next hbracket =>
      obtain ⟨rfl, rfl⟩ := Prod.mk.inj h
      obtain rfl := Option.some.inj he
      exact ⟨rfl, position_le_of_readBracket hbracket⟩
  · split at h
    · obtain ⟨rfl, -⟩ := Prod.mk.inj h
      cases he
    · obtain ⟨rfl, rfl⟩ := Prod.mk.inj h
      obtain rfl := Option.some.inj he
      exact ⟨rfl, Nat.zero_le _⟩

theorem Lexeme.isSound_of_error? {l : Lexeme} (h : l.error? = none) : l.IsSound := by
  cases l with
  | broken e => cases h
  | brokenTimes e => cases h
  | _ => trivial

/-- A lexeme takes no more than there is. -/
theorem Lexeme.taken_le_length (space : CharSet) (c : Char) (rest : List Char) :
    (Lexeme.read space c rest).2 ≤ rest.length := by
  obtain ⟨l, n, hread⟩ : ∃ l n, Lexeme.read space c rest = (l, n) := ⟨_, _, rfl⟩
  rw [hread]
  cases herror : l.error? with
  | some e =>
    rw [(of_error? hread herror).1]
    exact Nat.zero_le _
  | none =>
    have hharmless : Harmless [] := by simp [Harmless]
    exact (read_append hread (isSound_of_error? herror) hharmless).1

/-! ## Tokens -/

/-- Tokens that are pieces of a text: none of them is empty, and what is wrong with one of them is
met before the end of the last one or there. -/
def Token.Fit : List Token → Prop
  | [] => True
  | t :: ts => t.text ≠ [] ∧
    (∀ e, t.lexeme.error? = some e →
      e.position ≤ t.text.length + (ts.flatMap Token.text).length) ∧ Fit ts

theorem Token.Fit.of_append {before after : List Token} {t : Token}
    (h : Fit (before ++ t :: after)) : (∀ u ∈ before, u.text ≠ []) ∧ Fit (t :: after) := by
  induction before with
  | nil => exact ⟨by simp, h⟩
  | cons u before ih =>
    obtain ⟨hu, -, hrest⟩ := h
    obtain ⟨hbefore, hfit⟩ := ih hrest
    exact ⟨List.forall_mem_cons.mpr ⟨hu, hbefore⟩, hfit⟩

theorem Token.Fit.text_ne_nil {ts : List Token} (h : Fit ts) : ∀ t ∈ ts, t.text ≠ [] := by
  induction ts with
  | nil => simp
  | cons t ts ih => exact List.forall_mem_cons.mpr ⟨h.1, ih h.2.2⟩

/-- There are no more tokens than characters. -/
theorem Token.Fit.length_le {ts : List Token} (h : Fit ts) :
    ts.length ≤ (ts.flatMap Token.text).length := by
  induction ts with
  | nil => exact le_rfl
  | cons t ts ih =>
    have hpos := List.length_pos_iff.mpr h.1
    have hle := ih h.2.2
    rw [List.flatMap_cons, List.length_append, List.length_cons]
    omega

/-- The tokens cover the text. -/
theorem tokens_flatMap_text (space : CharSet) (text : List Char) :
    (tokens space text).flatMap Token.text = text := by
  fun_induction tokens space text with
  | case1 => rfl
  | case2 c rest lexeme taken hread ih =>
    rw [List.flatMap_cons, ih, List.cons_append, List.take_append_drop]

theorem fit_tokens (space : CharSet) (text : List Char) : Token.Fit (tokens space text) := by
  fun_induction tokens space text with
  | case1 => trivial
  | case2 c rest lexeme taken hread ih =>
    refine ⟨List.cons_ne_nil _ _, fun e he => ?_, ih⟩
    obtain ⟨rfl, hle⟩ := Lexeme.of_error? hread he
    rw [tokens_flatMap_text]
    simpa [Nat.add_comm] using hle

end Exemplar.Pattern
