import Exemplar.Proofs.Grammar.Syntax
import Exemplar.Proofs.Language
import Exemplar.Proofs.Pattern.Classes
import Exemplar.Proofs.Results

/-!
# How escapes and classes in brackets are read

The text of an escape is read as the character or the set that it stands for, and the text of a
class in brackets as a class of the characters that it stands for, whatever comes behind it; or else
the text is found to be malformed.

## Main results

* `Spells.read`, `Named.read`: escapes
* `Bracketed.read`: classes in brackets
-/

namespace Exemplar.Grammar

open Pattern

variable {space : CharSet}

/-! ## Escapes -/

theorem accepted_literal (c : Char) : Meaning.accepted (.literal c) = {c} := by
  ext d
  simp [Meaning.accepted, CharClass.literal, CharClass.accepts, CharSet.contains_iff]

theorem readHex_digits {digits rest : List Char} {width : Nat} {malformed : Reason} {c : Char}
    (hlength : digits.length = width) (hvalue : hexValue? digits = some c.toNat) :
    Escape.readHex width malformed (digits ++ rest) = .ok (c, width) := by
  subst hlength
  unfold Escape.readHex
  simp [hvalue, charAt?_toNat]

/-- The letter that begins an escape for a character, and the character that is read from there. -/
structure ReadsLetter (space : CharSet) (letters : List Char) (c first : Char) (more : List Char) :
    Prop where
  letters_eq : letters = first :: more
  not_named : Escape.namedSet? space first = none
  not_boundary : first ≠ 'b' ∧ first ≠ 'B'
  not_reference : ¬('1' ≤ first ∧ first ≤ '9')
  read (rest : List Char) : Escape.readChar first (more ++ rest) = .ok (c, more.length) ∨
    ∃ e, Escape.readChar first (more ++ rest) = .error e

/-- What is written behind a backslash is read as the character that is meant. A letter that stands
for itself is neither special nor a digit. -/
theorem Spells.readsLetter (space : CharSet) {letters : List Char} {c : Char}
    (h : Spells letters c) :
    ∃ first more, ReadsLetter space letters c first more := by
  cases h with
  | tab => exact ⟨_, _, rfl, rfl, by decide, by decide, fun _ => .inl rfl⟩
  | lineFeed => exact ⟨_, _, rfl, rfl, by decide, by decide, fun _ => .inl rfl⟩
  | carriageReturn => exact ⟨_, _, rfl, rfl, by decide, by decide, fun _ => .inl rfl⟩
  | formFeed => exact ⟨_, _, rfl, rfl, by decide, by decide, fun _ => .inl rfl⟩
  | verticalTab => exact ⟨_, _, rfl, rfl, by decide, by decide, fun _ => .inl rfl⟩
  | null =>
    refine ⟨_, _, rfl, rfl, by decide, by decide, fun rest => ?_⟩
    simp only [Escape.readChar, List.nil_append, List.length_nil]
    split
    · exact .inr ⟨_, rfl⟩
    · exact .inl rfl
  | control hletter =>
    refine ⟨_, _, rfl, rfl, by decide, by decide, fun rest => .inl ?_⟩
    simp [Escape.readChar, Option.filter, hletter]
  | hex hlength hvalue =>
    refine ⟨_, _, rfl, rfl, by decide, by decide, fun rest => .inl ?_⟩
    rw [hlength]
    exact readHex_digits hlength hvalue
  | unicode hlength hvalue =>
    refine ⟨_, _, rfl, rfl, by decide, by decide, fun rest => .inl ?_⟩
    rw [hlength]
    exact readHex_digits hlength hvalue
  | self hletter hdigit =>
    simp only [escapeLetters, List.mem_cons, List.not_mem_nil, or_false, not_or] at hletter
    refine ⟨c, [], rfl, ?_, ?_, ?_, fun rest => .inl ?_⟩
    · unfold Escape.namedSet?
      split <;> simp_all
    · simp_all
    · rintro ⟨h1, h9⟩
      rw [CharSet.le_iff_toNat_le] at h1 h9
      have h : c.isDigit = true := Char.isDigit_iff_toNat.mpr ⟨(by decide : 48 ≤ 49).trans h1, h9⟩
      rw [hdigit] at h
      cases h
    · unfold Escape.readChar
      split <;> simp_all

/-- The text of an escape for a character. -/
theorem Spells.read {letters : List Char} {c : Char} (h : Spells letters c) (rest : List Char) :
    Escape.read space (letters ++ rest) = .ok (.literal c, letters.length) ∨
      ∃ e, Escape.read space (letters ++ rest) = .error e := by
  obtain ⟨first, more, rfl, hnamed, hboundary, hreference, hread⟩ := h.readsLetter space
  have hread := hread rest
  rw [List.cons_append, Escape.read, if_neg (not_or.mpr hboundary), if_neg hreference, hnamed]
  split
  · exact .inr ⟨_, rfl⟩
  · rcases hread with hread | ⟨e, hread⟩
    · exact .inl (by rw [hread]; rfl)
    · exact .inr ⟨e, by rw [hread]; rfl⟩

/-- The set that an escape names. -/
theorem Named.namedSet? (space : CharSet) (set : Named) (negated : Bool) : ∃ members : CharSet,
    Escape.namedSet? space (set.letter negated) = some (members, !negated) ∧
      ∀ c, c ∈ members ↔ c ∈ set.members space := by
  cases set with
  | digit =>
    refine ⟨.digits, by cases negated <;> rfl, fun c => ?_⟩
    simp [CharSet.digits, members]
  | word =>
    refine ⟨.wordChars, by cases negated <;> rfl, fun c => ?_⟩
    simp [CharSet.wordChars, CharSet.digits, members, or_assoc]
  | space => exact ⟨space, by cases negated <;> rfl, fun c => Iff.rfl⟩

/-- The letter of a named set is read as the class of its characters. -/
theorem Named.read (set : Named) (negated : Bool) (rest : List Char) : ∃ cls,
    Escape.read space (set.letter negated :: rest) = .ok (cls, 1) ∧
      Meaning.accepted cls = set.chars space negated := by
  obtain ⟨members, hset, hmembers⟩ := set.namedSet? space negated
  have hletter : ¬(set.letter negated = 'b' ∨ set.letter negated = 'B') ∧
      ¬('1' ≤ set.letter negated ∧ set.letter negated ≤ '9') ∧ set.letter negated ≠ 'k' := by
    cases set <;> cases negated <;> decide
  rw [Escape.read, if_neg hletter.1, if_neg hletter.2.1, if_neg hletter.2.2, hset]
  cases negated with
  | false =>
    refine ⟨_, rfl, ?_⟩
    ext c
    simp [CharClass.accepts, CharSet.contains_iff, hmembers, Named.chars]
  | true =>
    refine ⟨_, rfl, ?_⟩
    ext c
    simp [CharClass.accepts, ← CharSet.contains_iff, ← hmembers, Named.chars]

/-! ## Brackets -/

section Brackets

open Bracket

variable {offset taken : Nat} {c : Char} {more after : List Char} {item : Bracket.Item}

/-- An item without a range behind it is read by itself, and the others are read behind it. -/
theorem readItems_single (hc : c ≠ ']') (hitem : readItem space c more = .ok (item, taken))
    (hdrop : more.drop taken = after)
    (hafter : ∀ last more', after = '-' :: last :: more' → last = ']') :
    readItems space offset (c :: more) = (readItems space (offset + 1 + taken) after).map
      fun (items, stop) => (item :: items, stop) := by
  rw [readItems, if_neg hc, hitem]
  subst hdrop
  dsimp only
  split
  next last more' hrest =>
    rw [if_pos (hafter last more' hrest), hrest]
  next => rfl

theorem readItems_error {e : Reason} (hc : c ≠ ']') (he : readItem space c more = .error e) :
    readItems space offset (c :: more) = .error (locate offset e) := by
  rw [readItems, if_neg hc, he]

/-- An item with a hyphen and another item behind it is read as a range, unless its ends do not make
one. -/
theorem readItems_range {last : Char} (hc : c ≠ ']')
    (hitem : readItem space c more = .ok (item, taken))
    (hdrop : more.drop taken = '-' :: last :: after) (hlast : last ≠ ']') :
    readItems space offset (c :: more) =
      match readItem space last after with
      | .error reason => .error (locate (offset + 1 + taken + 1) reason)
      | .ok (lastItem, lastTaken) =>
        match rangeOf offset item lastItem with
        | .error e => .error e
        | .ok range =>
          (readItems space (offset + 1 + taken + 2 + lastTaken) (after.drop lastTaken)).map
            fun (items, stop) => (range :: items, stop) := by
  rw [readItems, if_neg hc, hitem]
  dsimp only
  split
  next last' more' hrest =>
    rw [hdrop] at hrest
    obtain ⟨-, rfl, rfl⟩ : '-' = '-' ∧ last = last' ∧ after = more' := by simpa using hrest
    exact if_neg hlast
  next hrest => exact absurd hdrop (hrest last after)

/-- The text of a character between brackets. -/
theorem BracketChar.read (space : CharSet) (x : BracketChar) : ∃ first more,
    x.text = first :: more ∧ first ≠ ']' ∧ ∀ rest,
      readItem space first (more ++ rest) = .ok (.char x.char, more.length) ∨
      ∃ e, readItem space first (more ++ rest) = .error e := by
  cases x with
  | plain c h =>
    refine ⟨c, [], rfl, h.1, fun rest => .inl ?_⟩
    rw [readItem.eq_def, if_pos h.2]
    rfl
  | escaped letters c h =>
    refine ⟨'\\', letters, rfl, by decide, fun rest => ?_⟩
    obtain ⟨first, more, rfl, hnamed, hboundary, hreference, hread⟩ :=
      h.readsLetter space
    have hread := hread rest
    rw [readItem.eq_def, if_neg (by simp), List.cons_append]
    simp only [if_neg hboundary.1, if_neg hboundary.2, if_neg hreference, hnamed]
    rcases hread with hread | ⟨e, hread⟩
    · exact .inl (by rw [hread]; rfl)
    · exact .inr ⟨e, by rw [hread]; rfl⟩
  | backspace => exact ⟨'\\', ['b'], rfl, by decide, fun _ => .inl rfl⟩

/-- The letter of a named set is read as an item between brackets. -/
theorem Named.readItem (set : Named) (negated : Bool) (rest : List Char) : ∃ item,
    Bracket.readItem space '\\' (set.letter negated :: rest) = .ok (item, 1) ∧
      ∀ c, item.accepts c = true ↔ c ∈ set.chars space negated := by
  obtain ⟨members, hset, hmembers⟩ := set.namedSet? space negated
  have hletter : set.letter negated ≠ 'b' ∧ set.letter negated ≠ 'B' ∧
      ¬('1' ≤ set.letter negated ∧ set.letter negated ≤ '9') := by
    cases set <;> cases negated <;> decide
  rw [readItem.eq_def, if_neg (by simp)]
  simp only [if_neg hletter.1, if_neg hletter.2.1, if_neg hletter.2.2, hset]
  cases negated with
  | false =>
    refine ⟨_, rfl, fun c => ?_⟩
    simp [Item.accepts, CharSet.contains_iff, hmembers, Named.chars]
  | true =>
    refine ⟨_, rfl, fun c => ?_⟩
    simp [Item.accepts, ← CharSet.contains_iff, ← hmembers, Named.chars]

/-- The text of an item that is no range. -/
theorem Item.readItem (space : CharSet) {x : Item} (hx : ¬x.IsRange) : ∃ first more,
    x.text = first :: more ∧ first ≠ ']' ∧ ∀ rest,
      (∃ item, Bracket.readItem space first (more ++ rest) = .ok (item, more.length) ∧
        ∀ c, item.accepts c = true ↔ c ∈ x.chars space) ∨
      ∃ e, Bracket.readItem space first (more ++ rest) = .error e := by
  cases x with
  | single x =>
    obtain ⟨first, more, htext, hfirst, hread⟩ := x.read space
    refine ⟨first, more, htext, hfirst, fun rest => (hread rest).imp (fun h => ?_) id⟩
    refine ⟨_, h, fun c => ?_⟩
    rw [Bracket.Item.accepts, beq_iff_eq, eq_comm]
    rfl
  | range lo hi => exact absurd trivial hx
  | named set negated =>
    exact ⟨'\\', [set.letter negated], rfl, by decide, fun rest => .inl (set.readItem negated rest)⟩

/-- What is read from the text of some items stands for the same characters. -/
def ReadsItems (space : CharSet) (items : List Item) (read : List Bracket.Item) : Prop :=
  ∀ c, (∃ y ∈ read, y.accepts c = true) ↔ ∃ x ∈ items, c ∈ x.chars space

theorem ReadsItems.cons {items : List Item} {read : List Bracket.Item} {x : Item}
    {y : Bracket.Item} (h : ReadsItems space items read)
    (hy : ∀ c, y.accepts c = true ↔ c ∈ x.chars space) :
    ReadsItems space (x :: items) (y :: read) := by
  intro c
  simp [hy, h c]

/-- Only a hyphen that comes last can follow an item that is no range. -/
theorem Item.eq_of_hyphen {items : List Item} {rest : List Char}
    (h : items = [hyphen] ∨ (items.flatMap text).head? ≠ some '-') (last : Char)
    (more : List Char) (heq : items.flatMap text ++ ']' :: rest = '-' :: last :: more) :
    last = ']' := by
  rcases h with rfl | h
  · have heq : '-' :: ']' :: rest = '-' :: last :: more := heq
    simp only [List.cons.injEq, true_and] at heq
    exact heq.1.symm
  · cases htext : items.flatMap text with
    | nil => simp [htext] at heq
    | cons first _ =>
      rw [htext] at h heq
      simp only [List.cons_append, List.cons.injEq] at heq
      exact absurd (congrArg some heq.1) h

/-- The text of the items up to the closing bracket is read as such items, or found to be
malformed. -/
def TextReads (space : CharSet) (items : List Item) (rest : List Char) (offset : Nat) : Prop :=
  (∃ read, readItems space offset (items.flatMap Item.text ++ ']' :: rest) =
      .ok (read, offset + (items.flatMap Item.text).length + 1) ∧ ReadsItems space items read) ∨
    ∃ e, readItems space offset (items.flatMap Item.text ++ ']' :: rest) = .error e

/-- A range in front of other items. Both ends are read, then their order is checked, then the rest
is read. -/
theorem TextReads.range {items : List Item} {rest : List Char}
    (h : ∀ offset, TextReads space items rest offset) (lo hi : BracketChar) (offset : Nat) :
    TextReads space (.range lo hi :: items) rest offset := by
  obtain ⟨first, more, hlo, hfirst, hreadlo⟩ := lo.read space
  obtain ⟨last, more', hhi, hlast, hreadhi⟩ := hi.read space
  have htext : (Item.range lo hi :: items).flatMap Item.text ++ ']' :: rest =
      first :: (more ++ '-' :: last :: (more' ++ (items.flatMap Item.text ++ ']' :: rest))) := by
    simp [Item.text, hlo, hhi]
  have hlength : ((Item.range lo hi :: items).flatMap Item.text).length =
      1 + more.length + 2 + more'.length + (items.flatMap Item.text).length := by
    simp [Item.text, hlo, hhi]
    omega
  rw [TextReads, htext, hlength]
  rcases hreadlo ('-' :: last :: (more' ++ (items.flatMap Item.text ++ ']' :: rest))) with
    hitem | ⟨e, he⟩
  · rw [readItems_range hfirst hitem List.drop_left hlast]
    rcases hreadhi (items.flatMap Item.text ++ ']' :: rest) with hitem' | ⟨e, he⟩
    · rw [hitem']
      dsimp only [rangeOf]
      split
      next e he => exact .inr ⟨e, rfl⟩
      next range hrange =>
        split at hrange
        · cases hrange
        · obtain rfl := Except.ok.inj hrange
          rw [List.drop_left]
          rcases h (offset + 1 + more.length + 2 + more'.length) with
            ⟨read, hread, hreads⟩ | ⟨e, he⟩
          · refine .inl ⟨.range lo.char hi.char :: read, ?_, hreads.cons ?_⟩
            · rw [hread]
              simp only [Except.map, Nat.add_assoc]
            · intro c
              simp [Bracket.Item.accepts, Item.chars]
          · exact .inr ⟨e, by rw [he]; rfl⟩
    · exact .inr ⟨_, by rw [he]⟩
  · exact .inr ⟨_, readItems_error hfirst he⟩

/-- A single character or a named set in front of other items. -/
theorem TextReads.single {x : Item} {items : List Item} {rest : List Char}
    (h : ∀ offset, TextReads space items rest offset) (hx : ¬x.IsRange)
    (happart : items = [Item.hyphen] ∨ (items.flatMap Item.text).head? ≠ some '-') (offset : Nat) :
    TextReads space (x :: items) rest offset := by
  obtain ⟨first, more, htext, hfirst, hread⟩ := Item.readItem space hx
  have hlength : ((x :: items).flatMap Item.text).length =
      1 + more.length + (items.flatMap Item.text).length := by
    simp [htext]
    omega
  rw [TextReads, hlength, List.flatMap_cons, htext, List.cons_append, List.cons_append,
    List.append_assoc]
  rcases hread (items.flatMap Item.text ++ ']' :: rest) with ⟨item, hitem, haccepts⟩ | ⟨e, he⟩
  · rw [readItems_single hfirst hitem List.drop_left (Item.eq_of_hyphen happart)]
    rcases h (offset + 1 + more.length) with ⟨read, hread, hreads⟩ | ⟨e, he⟩
    · refine .inl ⟨item :: read, ?_, hreads.cons haccepts⟩
      rw [hread]
      simp only [Except.map, Nat.add_assoc]
    · exact .inr ⟨e, by rw [he]; rfl⟩
  · exact .inr ⟨_, readItems_error hfirst he⟩

/-- The text of items that are told apart. Only an item that is no range could be taken for the
beginning of one. -/
theorem textReads_of_apart (space : CharSet) {items : List Item} (h : Item.Apart items)
    (rest : List Char) (offset : Nat) : TextReads space items rest offset := by
  induction items generalizing offset with
  | nil =>
    refine .inl ⟨[], ?_, fun c => by simp⟩
    rw [List.flatMap_nil, List.nil_append, readItems, if_pos rfl]
    rfl
  | cons x items ih =>
    obtain ⟨happart, hitems⟩ := h
    by_cases hx : x.IsRange
    · cases x with
      | range lo hi => exact .range (ih hitems) lo hi offset
      | single => exact hx.elim
      | named => exact hx.elim
    · exact .single (ih hitems) hx (happart.resolve_left hx) offset

/-- The text of a class behind its opening bracket. A first item is not mistaken for the sign of
negation. -/
theorem Bracketed.read (b : Bracketed) (rest : List Char) :
    (∃ cls, Bracket.read space (b.text ++ rest) = .ok (cls, b.text.length) ∧
      Meaning.accepted cls = b.chars space) ∨
    ∃ e, Bracket.read space (b.text ++ rest) = .error e := by
  have hnegated : (b.text ++ rest).head? = some '^' ↔ b.negated = true := by
    have hcaret := b.not_caret
    rw [Bracketed.text]
    cases hneg : b.negated with
    | true => simp
    | false =>
      cases hitems : b.items.flatMap Item.text with
      | nil => simp
      | cons first _ =>
        rw [hitems] at hcaret
        simpa using hcaret hneg
  have hdrop : (b.text ++ rest).drop (if b.negated then 1 else 0) =
      b.items.flatMap Item.text ++ ']' :: rest := by
    cases h : b.negated <;> simp [text, h]
  have hlength : b.text.length = (if b.negated then 1 else 0) +
      (b.items.flatMap Item.text).length + 1 := by
    cases h : b.negated <;> simp [text, h]
    omega
  cases hr : Bracket.read space (b.text ++ rest) with
  | error e => exact .inr ⟨e, rfl⟩
  | ok result =>
    simp only [Bracket.read, bind_eq_ok, check_eq_ok, pure_eq_ok, hnegated, hdrop,
      Bool.decide_eq_true] at hr
    obtain ⟨⟨read, stop⟩, hread, -, -, rfl⟩ := hr
    rcases textReads_of_apart space b.apart rest ((if b.negated then 1 else 0) + 1) with
      ⟨read', hread', hreads⟩ | ⟨e, he⟩
    · rw [hread'] at hread
      obtain ⟨rfl, rfl⟩ := Prod.mk.inj (Except.ok.inj hread)
      refine .inl ⟨toClass b.negated read', ?_, ?_⟩
      · rw [hlength]
        congr 2
        omega
      · ext c
        rw [Meaning.mem_accepted, accepts_toClass, hreads c]
        rfl
    · rw [he] at hread
      cases hread

end Brackets

end Exemplar.Grammar
