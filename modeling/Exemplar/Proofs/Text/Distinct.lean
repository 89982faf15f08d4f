import Exemplar.Proofs.Text.Tokens

/-!
# Texts that tell tokens apart

A text belongs to a single list of tokens. Reading it back does not show this, for where the null
character stands in front of a digit, or a character beyond U+FFFF between brackets, it is not read
as what it was written for. But each character can be told from its text as long as it is known
where the digits of a code point end: after four of them, or between brackets also where no other
one follows. In ascending order there is no digit behind a character beyond U+00FF.

Only a single character beyond U+FFFF that stands by itself can be taken for another one with
digits behind it.

## Main definitions

* `unescape`: the character that a text begins with
* `signChars`: what tokens other than classes begin with
* `CharClass.IsShort`: no single character beyond U+FFFF

## Main results

* `items_eq_of_text_eq`: items between brackets are told apart
* `CharClass.eq_of_chars_append_eq`: classes are told apart
* `Tree.tokens_eq_of_chars_eq`: trees with the same pattern have the same tokens
-/

namespace Exemplar

/-! ## Hexadecimal digits -/

theorem hexDigit?_lt {c : Char} {d : Nat} (h : hexDigit? c = some d) : d < 16 := by
  unfold hexDigit? at h
  simp only [CharSet.le_iff_toNat_le] at h
  split at h
  next hc =>
    have := Option.some.inj h
    have : '9'.toNat = 57 ∧ '0'.toNat = 48 := by decide
    omega
  next =>
    split at h
    next hc =>
      have := Option.some.inj h
      have : 'f'.toNat = 102 ∧ 'a'.toNat = 97 := by decide
      omega
    next =>
      split at h
      next hc =>
        have := Option.some.inj h
        have : 'F'.toNat = 70 ∧ 'A'.toNat = 65 := by decide
        omega
      next => cases h

/-- The characters of a number are digits, and their count bounds it. -/
theorem of_hexValue? {l : List Char} {n : Nat} (h : hexValue? l = some n) :
    n < 16 ^ l.length ∧ ∀ c ∈ l, (hexDigit? c).isSome = true := by
  induction l using List.reverseRecOn generalizing n with
  | nil =>
    obtain rfl : 0 = n := Option.some.inj h
    simp
  | append_singleton l c ih =>
    rw [hexValue?_concat, Option.bind_eq_some_iff] at h
    obtain ⟨value, hvalue, h⟩ := h
    obtain ⟨d, hd, rfl⟩ := Option.map_eq_some_iff.mp h
    obtain ⟨hlt, hall⟩ := ih hvalue
    have := hexDigit?_lt hd
    refine ⟨?_, List.forall_mem_append.mpr ⟨hall, List.forall_mem_singleton.mpr (by simp [hd])⟩⟩
    rw [List.length_append, List.length_singleton, pow_succ]
    omega

theorem length_toDigits_le_iff {n k : Nat} (hk : 0 < k) :
    (Nat.toDigits 16 n).length ≤ k ↔ n < 16 ^ k :=
  Nat.length_toDigits_le_iff (by decide) hk

/-- Two zeros come first just in the numbers up to 0xFF. What comes behind the zeros is not shorter
than the number without them. -/
theorem take_upperHex_eq_iff {n : Nat} : (upperHex 4 n).take 2 = ['0', '0'] ↔ n ≤ 0xFF := by
  have hlength : (upperHex 4 n).length = max 4 (Nat.toDigits 16 n).length := by
    rw [upperHex, List.length_leftpad, List.length_map]
  constructor
  · intro h
    have hsplit : upperHex 4 n = List.replicate 2 '0' ++ (upperHex 4 n).drop 2 := by
      conv_lhs => rw [← List.take_append_drop 2 (upperHex 4 n), h]
      rfl
    have hvalue : hexValue? ((upperHex 4 n).drop 2) = some n := by
      rw [← hexValue?_zeros 2, ← hsplit, hexValue?_upperHex]
    have hlt := (of_hexValue? hvalue).1
    rw [List.length_drop, hlength, ← length_toDigits_le_iff (by omega)] at hlt
    have := (length_toDigits_le_iff (n := n) (k := 2) (by decide)).mp (by omega)
    omega
  · intro h
    have hdigits := (length_toDigits_le_iff (n := n) (k := 2) (by decide)).mpr (by omega)
    obtain ⟨k, hk⟩ : ∃ k, 4 - (Nat.toDigits 16 n).length = k + 2 :=
      ⟨2 - (Nat.toDigits 16 n).length, by omega⟩
    rw [upperHex, List.leftpad, List.length_map, hk, List.replicate_succ, List.replicate_succ]
    rfl

namespace Pattern

/-! ## Characters -/

/-- The character that a text begins with, and what comes behind it, where `digits` tells the digits
of a code point. -/
def unescape (digits : List Char → List Char) : List Char → Option (Char × List Char)
  | [] => none
  | c :: rest =>
    if c ≠ '\\' then some (c, rest)
    else match rest with
      | [] => none
      | letter :: rest =>
        if letter = 'u' then
          (hexValue? (digits rest)).map fun n => (Char.ofNat n, rest.drop (digits rest).length)
        else (Escape.readChar letter []).toOption.map fun (value, _) => (value, rest)

/-- A character is told from its text, if its digits are. -/
theorem Spelling.unescape {reserved w rest : List Char} {c : Char} (h : Spelling reserved c w)
    (hback : '\\' ∈ reserved) {digits : List Char → List Char}
    (hdigits : digits (upperHex 4 c.toNat ++ rest) = upperHex 4 c.toNat) :
    unescape digits (w ++ rest) = some (c, rest) := by
  cases h with
  | plain hplain =>
    have hne : c ≠ '\\' := fun heq => hplain (heq ▸ hback)
    simp [Pattern.unescape, hne]
  | letter _ hcode hread =>
    simp [Pattern.unescape, hcode, hread [] (by simp [Parted]), Except.toOption]
  | code =>
    simp [Pattern.unescape, hdigits, hexValue?_upperHex]

/-! ## Brackets -/

namespace Bracket

/-- The digits of a code point between brackets: four of them where two zeros come first, otherwise
all those that follow each other. -/
def codeDigits (text : List Char) : List Char :=
  if text.take 2 = ['0', '0'] then text.take 4 else text.takeWhile fun c => (hexDigit? c).isSome

/-- No digit comes behind a character beyond U+00FF. -/
def Ended (c : Char) (rest : List Char) : Prop :=
  0xFF < c.toNat → ∀ d ∈ rest.head?, hexDigit? d = none

/-- What comes behind a code is not taken for a part of it. A control character has four digits, and
others may follow. -/
theorem codeDigits_upperHex {c : Char} {rest : List Char} (h : Ended c rest) :
    codeDigits (upperHex 4 c.toNat ++ rest) = upperHex 4 c.toNat := by
  have hlength : 4 ≤ (upperHex 4 c.toNat).length := by
    rw [upperHex, List.length_leftpad]
    exact Nat.le_max_left ..
  simp only [codeDigits, List.take_append_of_le_length (Nat.le_trans (Nat.le_add_left 2 2) hlength),
    take_upperHex_eq_iff]
  split
  next hc => exact List.take_left' (length_upperHex (by omega))
  next hc =>
    have hrest : rest.takeWhile (fun c => (hexDigit? c).isSome) = [] := by
      cases rest with
      | nil => rfl
      | cons d rest => simp [h (by omega) d rfl]
    rw [List.takeWhile_append_of_pos (of_hexValue? (hexValue?_upperHex 4 _)).2, hrest,
      List.append_nil]

/-- How a character begins between brackets. -/
theorem head_spelling {c : Char} {w : List Char} (h : Spelling bracketChars c w) :
    ∃ first more, w = first :: more ∧ first ∉ [']', '-', '^'] ∧
      (0xFF < c.toNat → first = '\\') ∧
      ∀ rest, (w ++ rest).take 2 ∉ [['\\', 's'], ['\\', 'S']] := by
  cases h with
  | plain hplain hc =>
    simp only [bracketChars, List.mem_cons, not_or] at hplain
    exact ⟨c, [], rfl, by simp [hplain], by omega, by simp [hplain]⟩
  | letter hletter =>
    have hnamed := hletter.not_named
    simp only [List.mem_cons, not_or] at hnamed
    exact ⟨'\\', _, rfl, by decide, fun _ => rfl, by simp [hnamed]⟩
  | code => exact ⟨'\\', _, rfl, by decide, fun _ => rfl, by simp⟩

/-- What an item is written as. Of the named sets only one is written, and what is outside of it. -/
def Item.text : Item → List Char
  | char c => escape bracketChars c
  | range lo hi => escape bracketChars lo ++ '-' :: escape bracketChars hi
  | inside _ => ['\\', 's']
  | outside _ => ['\\', 'S']

/-- The characters that are written of an item. -/
def Item.ends : Item → List Char
  | char c => [c]
  | range lo hi => [lo, hi]
  | inside _ | outside _ => []

/-- The set that an item names. -/
def Item.named : Item → CharSet
  | char _ | range _ _ => ∅
  | inside set | outside set => set

/-- The item that a text begins with, and what comes behind it. -/
def Item.read? (text : List Char) : Option (Item × List Char) :=
  if text.head? = some ']' then none
  else if text.take 2 = ['\\', 's'] then some (.inside ∅, text.drop 2)
  else if text.take 2 = ['\\', 'S'] then some (.outside ∅, text.drop 2)
  else match unescape codeDigits text with
    | none => none
    | some (lo, '-' :: rest) =>
      (unescape codeDigits rest).map fun (hi, rest) => (.range lo hi, rest)
    | some (c, rest) => some (.char c, rest)

theorem spelling_bracket (c : Char) : Spelling bracketChars c (escape bracketChars c) :=
  spelling_escape c fun _ => .inr

theorem unescape_bracket {c : Char} {rest : List Char} (h : Ended c rest) :
    unescape codeDigits (escape bracketChars c ++ rest) = some (c, rest) :=
  (spelling_bracket c).unescape (by decide) (codeDigits_upperHex h)

/-- An item is read from the character that comes first, with the rest of a range if there is one.
-/
theorem Item.read?_escape (c : Char) (rest : List Char) :
    read? (escape bracketChars c ++ rest) =
      match unescape codeDigits (escape bracketChars c ++ rest) with
      | none => none
      | some (lo, '-' :: rest) =>
        (unescape codeDigits rest).map fun (hi, rest) => (.range lo hi, rest)
      | some (c, rest) => some (.char c, rest) := by
  obtain ⟨first, more, htext, hfirst, -, htake⟩ := head_spelling (spelling_bracket c)
  have htake := htake rest
  simp only [List.mem_cons, not_or] at hfirst htake
  rw [read?, if_neg (by simp [htext, hfirst]), if_neg htake.1, if_neg htake.2.1]

/-- An item is told from its text. -/
theorem Item.read?_text {item : Item} {rest : List Char} (hnamed : item.named = ∅)
    (hrest : rest.head? ≠ some '-') (hended : ∀ c ∈ item.ends.getLast?, Ended c rest) :
    read? (item.text ++ rest) = some (item, rest) := by
  cases item with
  | char c =>
    rw [text, read?_escape, unescape_bracket (hended c rfl)]
    cases rest with
    | nil => rfl
    | cons d rest =>
      have : d ≠ '-' := by simpa using hrest
      simp [this]
  | range lo hi =>
    have hlo : Ended lo ('-' :: (escape bracketChars hi ++ rest)) := by
      rintro - d hd
      obtain rfl := Option.some.inj hd
      rfl
    rw [text, List.append_assoc, List.cons_append, read?_escape, unescape_bracket hlo]
    simp only [unescape_bracket (hended hi rfl), Option.map_some]
  | inside set =>
    obtain rfl : set = ∅ := hnamed
    rfl
  | outside set =>
    obtain rfl : set = ∅ := hnamed
    rfl

/-- Items in ascending order, of which none names a set with members. -/
structure IsSpelled (items : List Item) : Prop where
  named : ∀ item ∈ items, item.named = ∅
  ascending : (items.flatMap Item.ends).Pairwise (· < ·)

theorem IsSpelled.tail {item : Item} {items : List Item} (h : IsSpelled (item :: items)) :
    IsSpelled items where
  named := (List.forall_mem_cons.mp h.named).2
  ascending := (List.pairwise_append.mp (List.flatMap_cons ▸ h.ascending)).2.1

theorem Item.text_begins (item : Item) : (∃ more, item.text = '\\' :: more) ∨
    ∃ c ∈ item.ends, ∃ more, item.text = escape bracketChars c ++ more := by
  cases item with
  | char c => exact .inr ⟨c, by simp [ends], [], by simp [text]⟩
  | range lo hi => exact .inr ⟨lo, by simp [ends], _, rfl⟩
  | inside => exact .inl ⟨_, rfl⟩
  | outside => exact .inl ⟨_, rfl⟩

/-- What comes behind an item: neither a hyphen nor a caret, and a digit only if a character up to
U+00FF is in front of it. -/
theorem behind_items (items : List Item) (rest : List Char) :
    ∃ first more, items.flatMap Item.text ++ ']' :: rest = first :: more ∧ first ∉ ['-', '^'] ∧
      ∀ c, (∀ d ∈ items.flatMap Item.ends, c < d) → Ended c (first :: more) := by
  cases items with
  | nil =>
    refine ⟨']', rest, rfl, by decide, fun c _ _ d hd => ?_⟩
    obtain rfl := Option.some.inj hd
    rfl
  | cons item items =>
    rw [List.flatMap_cons, List.flatMap_cons]
    obtain ⟨more, htext⟩ | ⟨d, hd, more, htext⟩ := item.text_begins
    · rw [htext]
      refine ⟨'\\', _, rfl, by decide, fun c _ _ d hd => ?_⟩
      obtain rfl := Option.some.inj hd
      rfl
    · obtain ⟨first, more', hescape, hfirst, hcode, -⟩ := head_spelling (spelling_bracket d)
      rw [htext, hescape]
      refine ⟨first, _, rfl, by simp_all, fun c hlt hc e he => ?_⟩
      -- The next character is beyond U+00FF, too, and begins with a backslash.
      have hcd : c < d := hlt d (List.mem_append_left _ hd)
      rw [Char.lt_def, UInt32.lt_iff_toNat_lt] at hcd
      obtain rfl := Option.some.inj he
      rw [hcode (Nat.lt_trans hc hcd)]
      rfl

/-- The first item is told from the text of all of them. -/
theorem IsSpelled.read?_text {item : Item} {items : List Item} (h : IsSpelled (item :: items))
    (rest : List Char) :
    Item.read? ((item :: items).flatMap Item.text ++ ']' :: rest) =
      some (item, items.flatMap Item.text ++ ']' :: rest) := by
  obtain ⟨first, more, hbehind, hfirst, hended⟩ := behind_items items rest
  have hascending := h.ascending
  rw [List.flatMap_cons, List.pairwise_append] at hascending
  rw [List.flatMap_cons, List.append_assoc, hbehind]
  refine Item.read?_text (h.named item List.mem_cons_self) (by simp_all) fun c hc => ?_
  exact hended c (hascending.2.2 c (List.mem_of_getLast? hc))

/-- Items are told apart by what they are written as. Item by item: the list ends where the text
goes on with a bracket, which no item begins with. -/
theorem items_eq_of_text_eq {items items' : List Item} (h : IsSpelled items)
    (h' : IsSpelled items') {rest rest' : List Char}
    (heq : items.flatMap Item.text ++ ']' :: rest = items'.flatMap Item.text ++ ']' :: rest') :
    items = items' := by
  induction items generalizing items' with
  | nil =>
    cases items' with
    | nil => rfl
    | cons item' items' =>
      have hread := h'.read?_text rest'
      rw [← heq] at hread
      cases hread
  | cons item items ih =>
    have hread := h.read?_text rest
    rw [heq] at hread
    cases items' with
    | nil => cases hread
    | cons item' items' =>
      rw [h'.read?_text rest', Option.some.injEq, Prod.mk.injEq] at hread
      obtain ⟨rfl, hrest⟩ := hread
      rw [ih h.tail h'.tail hrest.symm]

/-! ### Sets -/

theorem run_eq_flatMap (chars : List Char) : run chars = (runItems chars).flatMap Item.text := by
  match chars with
  | [] => rfl
  | [a] => simp [run, runItems, Item.text]
  | [a, b] => simp [run, runItems, Item.text]
  | a :: b :: c :: l => simp [run, runItems, Item.text]

theorem body_eq_flatMap (set : CharSet) : body set = (bodyItems set).flatMap Item.text := by
  rw [body_eq, bodyItems, List.flatMap_assoc]
  exact List.flatMap_congr fun chars _ => run_eq_flatMap chars

/-- Of a run its characters are written, or the first and the last of them. -/
theorem ends_runItems (chars : List Char) : ((runItems chars).flatMap Item.ends).Sublist chars := by
  match chars with
  | [] => exact .slnil
  | [a] => exact .refl _
  | [a, b] => exact .refl _
  | a :: b :: c :: l =>
    have hlast : (a :: b :: c :: l).getLastD a ∈ b :: c :: l := List.getLastD_mem_cons
    exact .cons_cons a (List.singleton_sublist.mpr hlast)

theorem named_of_mem_runItems {chars : List Char} {item : Item} (h : item ∈ runItems chars) :
    item.named = ∅ := by
  unfold runItems at h
  split at h
  · rw [List.mem_singleton.mp h]
    rfl
  · obtain ⟨c, -, rfl⟩ := List.mem_map.mp h
    rfl

/-- The runs of a set are spelled in such a way that they can be told apart. -/
theorem isSpelled_bodyItems (set : CharSet) : IsSpelled (bodyItems set) where
  named item hitem := by
    obtain ⟨chars, -, hitem⟩ := List.mem_flatMap.mp hitem
    exact named_of_mem_runItems hitem
  ascending := by
    have hsublist : ((bodyItems set).flatMap Item.ends).Sublist set.toList := by
      rw [bodyItems, List.flatMap_assoc, ← flatten_runs, ← List.flatMap_id]
      exact .flatMap_right _ fun chars _ => ends_runItems chars
    exact set.ascending.sublist hsublist

/-- All characters. -/
theorem isSpelled_everything : IsSpelled [.inside ∅, .outside ∅] := ⟨by simp [Item.named], .nil⟩

end Bracket

/-- The characters that tokens other than classes begin with. -/
def signChars : List Char := ['^', '$', '|', '?', '*', '+', '(', ')', '\x7b']

end Pattern

open Pattern

/-! ## Classes -/

namespace CharClass

/-- The class is not that of a single character beyond U+FFFF. -/
def IsShort (cls : CharClass) : Prop := ∀ c, cls = .literal c → c.toNat ≤ 0xFFFF

instance : DecidablePred IsShort
  | anyOf set => decidable_of_iff
    ((set.toList.all fun c => set = .singleton c → c.toNat ≤ 0xFFFF) = true) <| by
      simp only [List.all_eq_true, decide_eq_true_eq]
      exact ⟨fun h c hc => h c (by simp [anyOf.inj hc, ← CharSet.mem_iff]) (anyOf.inj hc),
        fun h c _ hc => h c (congrArg anyOf hc)⟩
  | noneOf _ | dot => .isTrue nofun

/-- How a class is written. -/
inductive Spelling : CharClass → List Char → Prop where
  | dot : Spelling .dot ['.']
  | single {c : Char} : c.toNat ≤ 0xFFFF → Spelling (.literal c) (escape syntaxChars c)
  | bracket (negated : Bool) {items : List Bracket.Item} : Bracket.IsSpelled items →
    Spelling (Bracket.toClass negated items)
      ('[' :: (if negated then ['^'] else []) ++ items.flatMap Bracket.Item.text ++ [']'])

/-- A short class is spelled by what it is written as. -/
theorem spelling_chars {cls : CharClass} (h : cls.IsShort) : Spelling cls cls.chars := by
  cases cls with
  | dot => exact .dot
  | noneOf set =>
    rw [chars]
    split
    next hempty =>
      obtain rfl : set = ∅ := CharSet.isEmpty_iff.mp hempty
      exact .bracket false Bracket.isSpelled_everything
    next =>
      have := Spelling.bracket true (Bracket.isSpelled_bodyItems set)
      rwa [Bracket.toClass_bodyItems, ← Bracket.body_eq_flatMap] at this
  | anyOf set =>
    rw [chars]
    split
    next c hset =>
      obtain rfl : set = .singleton c := CharSet.ext_toList hset
      exact .single (h c rfl)
    next =>
      have := Spelling.bracket false (Bracket.isSpelled_bodyItems set)
      rwa [Bracket.toClass_bodyItems, ← Bracket.body_eq_flatMap] at this

theorem head_escape (c : Char) :
    ∃ first more, escape syntaxChars c = first :: more ∧ first ∉ syntaxChars.tail := by
  have h : Pattern.Spelling syntaxChars c (escape syntaxChars c) := spelling_escape c fun _ => .inl
  generalize escape syntaxChars c = w at h ⊢
  cases h with
  | plain hplain => exact ⟨c, [], rfl, fun hc => hplain (List.mem_of_mem_tail hc)⟩
  | letter | code => exact ⟨'\\', _, rfl, by decide⟩

/-- A class does not begin like another token. -/
theorem head_spelling {cls : CharClass} {w : List Char} (h : Spelling cls w) :
    ∃ first more, w = first :: more ∧ first ∉ signChars := by
  cases h with
  | dot => exact ⟨_, _, rfl, by decide⟩
  | bracket => exact ⟨_, _, rfl, by decide⟩
  | @single c =>
    obtain ⟨first, more, hc, hfirst⟩ := head_escape c
    have hsubset : signChars ⊆ syntaxChars.tail := by decide
    exact ⟨first, more, hc, fun hmem => hfirst (hsubset hmem)⟩

theorem not_mem_of_escape_eq {first c : Char} {more rest : List Char}
    (heq : escape syntaxChars c ++ rest = first :: more) : first ∉ syntaxChars.tail := by
  obtain ⟨first', more', htext, hfirst⟩ := head_escape c
  rw [htext] at heq
  exact (List.cons_eq_cons.mp heq).1 ▸ hfirst

theorem unescape_syntax {c : Char} (hc : c.toNat ≤ 0xFFFF) (rest : List Char) :
    unescape (·.take 4) (escape syntaxChars c ++ rest) = some (c, rest) :=
  (spelling_escape c fun _ => .inl).unescape (by decide) (List.take_left' (length_upperHex hc))

/-- A negated list of items does not begin like one that is not. -/
theorem bracket_eq {negated negated' : Bool} {items items' : List Bracket.Item}
    (h : Bracket.IsSpelled items) (h' : Bracket.IsSpelled items') {rest rest' : List Char}
    (heq : (if negated then ['^'] else []) ++ (items.flatMap Bracket.Item.text ++ ']' :: rest) =
      (if negated' then ['^'] else []) ++ (items'.flatMap Bracket.Item.text ++ ']' :: rest')) :
    negated = negated' ∧ items = items' := by
  have hcaret : ∀ {items : List Bracket.Item} {rest more : List Char},
      items.flatMap Bracket.Item.text ++ ']' :: rest = '^' :: more → False := by
    intro items rest more heq
    obtain ⟨first, more', htext, hfirst, -⟩ := Bracket.behind_items items rest
    obtain rfl : first = '^' := (List.cons_eq_cons.mp (htext.symm.trans heq)).1
    exact hfirst (by decide)
  cases negated <;> cases negated'
  · exact ⟨rfl, Bracket.items_eq_of_text_eq h h' heq⟩
  · exact (hcaret heq).elim
  · exact (hcaret heq.symm).elim
  · exact ⟨rfl, Bracket.items_eq_of_text_eq h h' (List.cons_eq_cons.mp heq).2⟩

/-- Classes are told apart by what they are written as, whatever comes behind them. Classes of
different kinds differ in their first character. -/
theorem eq_of_chars_append_eq {cls cls' : CharClass} (h : cls.IsShort) (h' : cls'.IsShort)
    {rest rest' : List Char} (heq : cls.chars ++ rest = cls'.chars ++ rest') : cls = cls' := by
  have hw := spelling_chars h
  have hw' := spelling_chars h'
  generalize cls.chars = w at hw heq
  generalize cls'.chars = w' at hw' heq
  cases hw with
  | dot =>
    cases hw' with
    | dot => rfl
    | single => exact absurd (by decide) (not_mem_of_escape_eq heq.symm)
    | bracket => cases heq
  | @single c hc =>
    cases hw' with
    | dot => exact absurd (by decide) (not_mem_of_escape_eq heq)
    | @single c' hc' =>
      have hread := unescape_syntax hc rest
      rw [heq, unescape_syntax hc' rest'] at hread
      rw [(Prod.mk.inj (Option.some.inj hread)).1]
    | bracket => exact absurd (by decide) (not_mem_of_escape_eq heq)
  | bracket negated hitems =>
    cases hw' with
    | dot => cases heq
    | single => exact absurd (by decide) (not_mem_of_escape_eq heq.symm)
    | bracket negated' hitems' =>
      obtain ⟨rfl, rfl⟩ := bracket_eq hitems hitems' (by simpa using heq)
      rfl

end CharClass

/-! ## Tokens -/

/-- Every quantifier begins with a sign. -/
theorem Extent.head_quantifier (e : Extent) :
    ∃ first more, e.quantifier = first :: more ∧ first ∈ signChars := by
  unfold quantifier
  split
  · split
    · exact ⟨_, _, rfl, by decide⟩
    · split <;> exact ⟨_, _, rfl, by decide⟩
  · split
    · exact ⟨_, _, rfl, by decide⟩
    · split <;> exact ⟨_, _, rfl, by decide⟩

namespace Pattern.Token

variable {t u : Token}

/-- The token is a sign: it is read from its text whatever comes behind it, and it begins like no
class. -/
def IsSign (t : Token) : Prop :=
  ∃ first more, t.text = first :: more ∧ first ∈ signChars ∧
    ∀ rest, Lexeme.read ∅ first (more ++ rest) = (t.lexeme, more.length)

/-- Each token that is not a class is a sign. -/
theorem Arises.isSign_or {P : CharClass → Prop} (h : t.Arises P) :
    t.IsSign ∨ ∃ cls, P cls ∧ t = .ofClass cls := by
  cases h with
  | caret | dollar | bar | opening | closing =>
    exact .inl ⟨_, _, rfl, by decide, fun _ => rfl⟩
  | ofClass hcls => exact .inr ⟨_, hcls, rfl⟩
  | @ofExtent e hleast =>
    obtain ⟨first, more, htext, hfirst⟩ := e.head_quantifier
    obtain ⟨first', more', htext', hread⟩ := Extent.read_quantifier hleast ∅
    obtain ⟨rfl, rfl⟩ := List.cons_eq_cons.mp (htext.symm.trans htext')
    exact .inl ⟨first, more, htext, hfirst, hread⟩

/-- Signs are told apart. -/
theorem IsSign.eq_of_text_append_eq (ht : t.IsSign) (hu : u.IsSign) {rest rest' : List Char}
    (heq : t.text ++ rest = u.text ++ rest') : t = u := by
  obtain ⟨first, more, htext, -, hread⟩ := ht
  obtain ⟨first', more', htext', -, hread'⟩ := hu
  rw [htext, htext', List.cons_append, List.cons_append, List.cons_eq_cons] at heq
  obtain ⟨rfl, hmore⟩ := heq
  have hsame := hread rest
  rw [hmore, hread' rest', Prod.mk.injEq] at hsame
  have htexts : t.text = u.text := by
    rw [htext, htext', List.append_inj_left hmore hsame.2.symm]
  cases t
  cases u
  simp_all

/-- A sign is no class. -/
theorem IsSign.false_of_text_append_eq (ht : t.IsSign) {cls : CharClass} (h : cls.IsShort)
    {rest rest' : List Char} (heq : t.text ++ rest = cls.chars ++ rest') : False := by
  obtain ⟨first, more, htext, hfirst, -⟩ := ht
  obtain ⟨first', more', htext', hfirst'⟩ := CharClass.head_spelling (CharClass.spelling_chars h)
  rw [htext, htext'] at heq
  exact hfirst' ((List.cons_eq_cons.mp heq).1 ▸ hfirst)

/-- Tokens are told apart by their texts, whatever comes behind them. -/
theorem eq_of_text_append_eq (ht : t.Arises CharClass.IsShort) (hu : u.Arises CharClass.IsShort)
    {rest rest' : List Char} (heq : t.text ++ rest = u.text ++ rest') : t = u := by
  obtain ht | ⟨cls, hcls, rfl⟩ := ht.isSign_or <;> obtain hu | ⟨cls', hcls', rfl⟩ := hu.isSign_or
  · exact ht.eq_of_text_append_eq hu heq
  · exact (ht.false_of_text_append_eq hcls' heq).elim
  · exact (hu.false_of_text_append_eq hcls heq.symm).elim
  · exact congrArg _ (CharClass.eq_of_chars_append_eq hcls hcls' heq)

theorem Arises.text_ne_nil (h : t.Arises CharClass.IsShort) : t.text ≠ [] := by
  obtain ⟨first, more, htext, -⟩ | ⟨cls, hcls, rfl⟩ := h.isSign_or
  · rw [htext]
    exact List.cons_ne_nil first more
  · obtain ⟨first, more, htext, -⟩ := CharClass.head_spelling (CharClass.spelling_chars hcls)
    change cls.chars ≠ []
    rw [htext]
    exact List.cons_ne_nil first more

/-- Tokens one after the other are told apart by their text. -/
theorem eq_of_flatMap_eq {ts us : List Token} (hts : ∀ t ∈ ts, t.Arises CharClass.IsShort)
    (hus : ∀ u ∈ us, u.Arises CharClass.IsShort) (heq : ts.flatMap text = us.flatMap text) :
    ts = us := by
  have hnil : ∀ {t : Token} {ts : List Token}, t.Arises CharClass.IsShort →
      [] ≠ (t :: ts).flatMap text := fun ht heq =>
    ht.text_ne_nil (List.append_eq_nil_iff.mp (List.flatMap_cons ▸ heq.symm)).1
  induction ts generalizing us with
  | nil =>
    cases us with
    | nil => rfl
    | cons u us => exact absurd heq (hnil (hus u List.mem_cons_self))
  | cons t ts ih =>
    rw [List.forall_mem_cons] at hts
    cases us with
    | nil => exact absurd heq.symm (hnil hts.1)
    | cons u us =>
      rw [List.forall_mem_cons] at hus
      rw [List.flatMap_cons, List.flatMap_cons] at heq
      obtain rfl := eq_of_text_append_eq hts.1 hus.1 heq
      rw [ih hts.2 hus.2 (List.append_cancel_left heq)]

end Pattern.Token

namespace Tree

/-- The leaf is not a single character beyond U+FFFF. -/
def HasShortClass : Tree → Prop
  | leaf cls _ => cls.IsShort
  | _ => True

instance : DecidablePred HasShortClass
  | leaf cls _ => inferInstanceAs (Decidable cls.IsShort)
  | sequence _ _ | choice _ _ => .isTrue trivial

/-- Trees with the same pattern are written with the same tokens. -/
theorem tokens_eq_of_chars_eq {t u : Tree} (ht : t.Every IsRegular) (hu : u.Every IsRegular)
    (hshort : t.Every HasShortClass) (hshort' : u.Every HasShortClass)
    (heq : t.chars false = u.chars false) : t.tokens false = u.tokens false := by
  rw [chars_eq_flatMap, chars_eq_flatMap] at heq
  exact Token.eq_of_flatMap_eq (arises_of_mem_tokens id ht.readable hshort false)
    (arises_of_mem_tokens id hu.readable hshort' false) heq

end Tree

end Exemplar
