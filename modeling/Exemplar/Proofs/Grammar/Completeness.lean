import Exemplar.Proofs.Grammar.Brackets
import Exemplar.Proofs.Pattern.Locality
import Exemplar.Proofs.Text.Brackets

/-!
# Every bracket expression has a syntax tree

Whatever is read as a class in brackets is the text of a syntax tree, so there is no bracket
expression whose meaning the grammar leaves open. Together with what the text of a syntax tree is
read as, this says what each class accepts: what some item of the expression stands for, or with a
negation what none stands for.

## Main definitions

* `ItemText`: what an item may have been read from
* `IsClassOf`: a class is the one of a bracket expression

## Main results

* `exists_items`, `exists_bracketed`: what is read has been written as a syntax tree
* `isClassOf_of_read`: what the class of a bracket expression accepts, and what is drawn from it
-/

namespace Exemplar.Grammar

open Pattern Bracket

variable {space : CharSet} {rest : List Char} {n : Nat} {c : Char}

/-! ## Escapes -/

/-- What is read as a code has been written in so many hexadecimal digits. -/
theorem of_readHex {width : Nat} {malformed : Reason}
    (h : Escape.readHex width malformed rest = .ok (c, n)) :
    ∃ digits after, rest = digits ++ after ∧ digits.length = n ∧ n = width ∧
      hexValue? digits = some c.toNat := by
  unfold Escape.readHex at h
  dsimp only at h
  split at h
  · cases h
  next value hvalue =>
    split at h
    · cases h
    next c' hc =>
      obtain ⟨rfl, rfl⟩ := Prod.mk.inj (Except.ok.inj h)
      split at hvalue
      next hlength =>
        refine ⟨_, _, (List.take_append_drop width rest).symm, hlength, rfl, ?_⟩
        rw [hvalue, toNat_of_charAt? hc]
      next => cases hvalue

/-- A letter that is read as a character spells it. Most escapes take nothing but their letter; a
back reference is told from the null character by the digits that follow. -/
theorem of_readChar {letter : Char} (h : Escape.readChar letter rest = .ok (c, n))
    (hnamed : Escape.namedSet? space letter = none) (hboundary : letter ≠ 'b' ∧ letter ≠ 'B')
    (hreference : ¬('1' ≤ letter ∧ letter ≤ '9')) :
    ∃ more after, rest = more ++ after ∧ more.length = n ∧ Spells (letter :: more) c := by
  have hletter : ∀ {d : Char}, (.ok (d, 0) : Except Reason (Char × Nat)) = .ok (c, n) →
      Spells [letter] d → ∃ more after, rest = more ++ after ∧ more.length = n ∧
        Spells (letter :: more) c := by
    intro d heq hspells
    obtain ⟨rfl, rfl⟩ := Prod.mk.inj (Except.ok.inj heq)
    exact ⟨[], rest, rfl, rfl, hspells⟩
  unfold Escape.readChar at h
  split at h
  · exact hletter h .tab
  · exact hletter h .lineFeed
  · exact hletter h .carriageReturn
  · exact hletter h .formFeed
  · exact hletter h .verticalTab
  · split at h
    · cases h
    · exact hletter h .null
  · cases rest with
    | nil => cases h
    | cons d rest =>
      split at h
      next d' hd =>
        obtain ⟨hd', hplain⟩ := Option.filter_eq_some_iff.mp hd
        obtain rfl := Option.some.inj hd'
        obtain ⟨rfl, rfl⟩ := Prod.mk.inj (Except.ok.inj h)
        exact ⟨[d], rest, rfl, rfl, .control hplain⟩
      · cases h
  · obtain ⟨digits, after, rfl, hlength, rfl, hvalue⟩ := of_readHex h
    exact ⟨digits, after, rfl, hlength, .hex hlength hvalue⟩
  · obtain ⟨digits, after, rfl, hlength, rfl, hvalue⟩ := of_readHex h
    exact ⟨digits, after, rfl, hlength, .unicode hlength hvalue⟩
  next ht hn hr hf hv h0 hc hx hu =>
    refine hletter h (.self ?_ ?_)
    · have hname : letter ∉ ['d', 'D', 'w', 'W', 's', 'S'] := fun hmem => by
        simp only [List.mem_cons, List.not_mem_nil, or_false] at hmem
        rcases hmem with rfl | rfl | rfl | rfl | rfl | rfl <;> cases hnamed
      simp only [List.mem_cons, List.not_mem_nil, or_false, not_or] at hname
      simp only [escapeLetters, List.mem_cons, List.not_mem_nil, or_false, not_or]
      exact ⟨ht, hn, hr, hf, hv, hc, hx, hu, hname.1, hname.2.1, hname.2.2.1, hname.2.2.2.1,
        hname.2.2.2.2.1, hname.2.2.2.2.2, hboundary.1, hboundary.2⟩
    · by_contra hdigit
      obtain ⟨hlow, hhigh⟩ := Char.isDigit_iff_toNat.mp (Bool.eq_true_of_not_eq_false hdigit)
      have hzero : letter.toNat ≠ 48 := fun heq => h0 (Char.toNat_inj.mp heq)
      refine hreference ⟨CharSet.le_iff_toNat_le.mpr ?_, CharSet.le_iff_toNat_le.mpr hhigh⟩
      exact Nat.lt_of_le_of_ne hlow hzero.symm

/-- A letter that names a set. -/
theorem exists_named {letter : Char} {set : CharSet} {inside : Bool}
    (h : Escape.namedSet? space letter = some (set, inside)) :
    ∃ (name : Named) (negated : Bool), letter = name.letter negated := by
  unfold Escape.namedSet? at h
  split at h
  · exact ⟨.digit, false, rfl⟩
  · exact ⟨.digit, true, rfl⟩
  · exact ⟨.word, false, rfl⟩
  · exact ⟨.word, true, rfl⟩
  · exact ⟨.space, false, rfl⟩
  · exact ⟨.space, true, rfl⟩
  · cases h

/-! ## Items -/

/-- What an item may have been read from: a character from what stands for it, and what is no
character from the name of a set. -/
inductive ItemText : Bracket.Item → List Char → Prop where
  | char (x : BracketChar) : ItemText (.char x.char) x.text
  | named {item : Bracket.Item} (set : Named) (negated : Bool) : (∀ a, item ≠ .char a) →
    ItemText item ['\\', set.letter negated]

theorem ItemText.exists_item {item : Bracket.Item} {text : List Char} (h : ItemText item text) :
    ∃ x : Item, ¬x.IsRange ∧ x.text = text := by
  cases h with
  | char x => exact ⟨.single x, id, rfl⟩
  | named set negated => exact ⟨.named set negated, id, rfl⟩

/-- What is read as an item is the text of one: it takes the letter behind a backslash, and for a
character what its escape takes. -/
theorem of_readItem {item : Bracket.Item} (hc : c ≠ ']')
    (h : Bracket.readItem space c rest = .ok (item, n)) :
    ∃ more after, rest = more ++ after ∧ more.length = n ∧ ItemText item (c :: more) := by
  unfold Bracket.readItem at h
  split at h
  next hplain =>
    obtain ⟨rfl, rfl⟩ := Prod.mk.inj (Except.ok.inj h)
    exact ⟨[], rest, rfl, rfl, .char (.plain c ⟨hc, hplain⟩)⟩
  next hescape =>
    obtain rfl := not_not.mp hescape
    cases rest with
    | nil => cases h
    | cons letter rest =>
      dsimp only at h
      split at h
      next hb =>
        obtain ⟨rfl, rfl⟩ := Prod.mk.inj (Except.ok.inj h)
        exact ⟨['b'], rest, by rw [hb]; rfl, rfl, .char .backspace⟩
      next hb =>
        split at h
        · cases h
        next hB =>
          split at h
          · cases h
          next hreference =>
            split at h
            next set hset =>
              obtain ⟨rfl, rfl⟩ := Prod.mk.inj (Except.ok.inj h)
              obtain ⟨name, negated, rfl⟩ := exists_named hset
              exact ⟨[_], rest, rfl, rfl, .named name negated nofun⟩
            next set hset =>
              obtain ⟨rfl, rfl⟩ := Prod.mk.inj (Except.ok.inj h)
              obtain ⟨name, negated, rfl⟩ := exists_named hset
              exact ⟨[_], rest, rfl, rfl, .named name negated nofun⟩
            next hset =>
              obtain ⟨⟨value, taken⟩, hread, h⟩ := map_eq_ok.mp h
              obtain ⟨rfl, rfl⟩ := Prod.mk.inj h
              obtain ⟨more, after, rfl, rfl, hspells⟩ :=
                of_readChar hread hset ⟨hb, hB⟩ hreference
              exact ⟨letter :: more, after, rfl, rfl, .char (.escaped _ _ hspells)⟩

/-- A range has been read from two characters. With the name of a set at either end there is no
range. -/
theorem exists_ends {offset : Nat} {first last range : Bracket.Item} {text text' : List Char}
    (h : ItemText first text) (h' : ItemText last text')
    (hr : rangeOf offset first last = .ok range) :
    ∃ lo hi : BracketChar, lo.text = text ∧ hi.text = text' := by
  cases h with
  | char lo =>
    cases h' with
    | char hi => exact ⟨lo, hi, rfl, rfl⟩
    | named set negated hne =>
      cases last with
      | char a => exact absurd rfl (hne a)
      | _ => cases hr
  | named set negated hne =>
    cases first with
    | char a => exact absurd rfl (hne a)
    | _ => cases hr

theorem flatMap_text_cons (x : Item) (xs : List Item) (rest : List Char) :
    (x :: xs).flatMap Item.text ++ rest = x.text ++ (xs.flatMap Item.text ++ rest) := by
  rw [List.flatMap_cons, List.append_assoc]

/-- What is read of items has been written as items that are told apart. By induction on how the
items are read, where four ways lead to success. Something stands behind a hyphen, at least the
closing bracket, so a hyphen behind an item would have been taken for one of a range or for the last
item. -/
theorem exists_items {offset stop : Nat} {items : List Bracket.Item}
    (h : readItems space offset rest = .ok (items, stop)) :
    ∃ (xs : List Item) (after : List Char), Item.Apart xs ∧
      rest = xs.flatMap Item.text ++ ']' :: after := by
  fun_induction readItems space offset rest generalizing items stop with
  | case1 => cases h
  | case2 offset rest => exact ⟨[], rest, trivial, rfl⟩
  | case3 => cases h
  | case4 offset c rest hc item taken hitem more hrest ih =>
    obtain ⟨letters, after, rfl, rfl, htext⟩ := of_readItem hc hitem
    obtain ⟨x, hx, hxtext⟩ := htext.exists_item
    rw [List.drop_left] at hrest
    subst hrest
    -- The hyphen is the last item.
    refine ⟨[x, .hyphen], more, ⟨.inr (.inl rfl), .inr (.inr ?_), trivial⟩, ?_⟩
    · intro hhead
      cases hhead
    · rw [flatMap_text_cons, hxtext]
      rfl
  | case5 => cases h
  | case6 => cases h
  | case7 offset c rest hc item taken hitem last more hrest hlast lastItem lastTaken hlastItem range
      hrange ih =>
    obtain ⟨⟨items', stop'⟩, hread, -⟩ := map_eq_ok.mp h
    obtain ⟨letters, after, rfl, rfl, htext⟩ := of_readItem hc hitem
    obtain ⟨letters', after', rfl, rfl, htext'⟩ := of_readItem hlast hlastItem
    rw [List.drop_left] at hrest
    subst hrest
    obtain ⟨xs, after, hapart, heq⟩ := ih hread
    rw [List.drop_left] at heq
    subst heq
    obtain ⟨lo, hi, hlo, hhi⟩ := exists_ends htext htext' hrange
    refine ⟨.range lo hi :: xs, after, ⟨.inl trivial, hapart⟩, ?_⟩
    rw [flatMap_text_cons, Item.text, hlo, hhi]
    simp
  | case8 offset c rest hc item taken hitem hrest ih =>
    obtain ⟨⟨items', stop'⟩, hread, -⟩ := map_eq_ok.mp h
    obtain ⟨letters, after, rfl, rfl, htext⟩ := of_readItem hc hitem
    obtain ⟨x, hx, hxtext⟩ := htext.exists_item
    rw [List.drop_left] at hrest ih hread
    obtain ⟨xs, after, hapart, rfl⟩ := ih hread
    refine ⟨x :: xs, after, ⟨.inr (.inr fun hhead => ?_), hapart⟩, ?_⟩
    · obtain ⟨more, hmore⟩ := List.head?_eq_some_iff.mp hhead
      obtain ⟨last, more', hlast⟩ : ∃ last more', more ++ ']' :: after = last :: more' :=
        List.exists_cons_of_ne_nil (List.append_ne_nil_of_right_ne_nil more (List.cons_ne_nil _ _))
      exact hrest last more' (by rw [hmore, List.cons_append, hlast])
    · rw [flatMap_text_cons, hxtext]
      rfl

/-! ## Bracket expressions -/

/-- What is read as a class in brackets has been written as one. -/
theorem exists_bracketed {cls : CharClass} (h : Bracket.read space rest = .ok (cls, n)) :
    ∃ b : Bracketed, b.text <+: rest := by
  simp only [Bracket.read, bind_eq_ok] at h
  obtain ⟨⟨items, stop⟩, hitems, -⟩ := h
  obtain ⟨xs, after, hapart, heq⟩ := exists_items hitems
  by_cases hcaret : rest.head? = some '^'
  · obtain ⟨more, rfl⟩ := List.head?_eq_some_iff.mp hcaret
    refine ⟨⟨true, xs, hapart, fun hnegated => absurd hnegated (by decide)⟩, after, ?_⟩
    simp only [List.head?_cons, if_true, List.drop_succ_cons, List.drop_zero] at heq
    simp [Bracketed.text, heq]
  · simp only [hcaret, if_false, List.drop_zero] at heq
    refine ⟨⟨false, xs, hapart, fun _ hhead => hcaret ?_⟩, after, ?_⟩
    · rw [heq, List.head?_append, hhead]
      rfl
    · simp [Bracketed.text, heq]

theorem ne_dot_of_read {cls : CharClass} (h : Bracket.read space rest = .ok (cls, n)) :
    cls ≠ .dot := by
  simp only [Bracket.read, bind_eq_ok, check_eq_ok, pure_eq_ok] at h
  obtain ⟨⟨items, stop⟩, -, -, -, heq⟩ := h
  obtain ⟨rfl, -⟩ := Prod.mk.inj heq
  unfold toClass
  intro hdot
  split at hdot <;> cases hdot

/-- What is drawn from a set is the set. -/
theorem mem_resolve_anyOf {alphabet : Alphabet} {set : CharSet} :
    c ∈ (CharClass.anyOf set).resolve alphabet ↔ (CharClass.anyOf set).accepts c = true :=
  CharSet.contains_iff.symm

/-- What is drawn from the characters outside of a set is printable. -/
theorem mem_resolve_noneOf {alphabet : Alphabet} {set : CharSet} :
    c ∈ (CharClass.noneOf set).resolve alphabet ↔
      (CharClass.noneOf set).accepts c = true ∧ c ∈ alphabet.printable := by
  rw [CharClass.resolve, CharSet.mem_diff, CharClass.accepts, Bool.not_eq_true',
    ← Bool.not_eq_true, CharSet.contains_iff, and_comm]

/-- The class is the one of the bracket expression that so many characters of the text, behind its
opening bracket, make up. -/
structure IsClassOf (options : Options) (text : List Char) (taken : Nat) (cls : CharClass) :
    Prop where
  /-- The characters are a bracket expression. -/
  written : ∃ b : Bracketed, b.text <+: text ∧ b.text.length = taken
  /-- However its items are told apart, the class accepts what some item stands for, or with a
  negation what none stands for. -/
  accepts_iff : ∀ b : Bracketed, b.text <+: text → ∀ c, cls.accepts c = true ↔
    ((∃ x ∈ b.items, c ∈ x.chars options.alphabet.space) ↔ b.negated = false)
  /-- Where the pattern ends with the expression, its tree is a leaf of the class. -/
  leaf : taken = text.length → parse options ('[' :: text) =
    .ok ((Tree.ofClass cls).withSource (String.ofList ('[' :: text)))
  /-- What is drawn from the class is what it accepts, or the printable characters of these where
  the class is given by what it excludes. -/
  drawn : (∃ set, cls = .anyOf set ∧
      ∀ c, c ∈ cls.resolve options.alphabet ↔ cls.accepts c = true) ∨
    ∃ set, cls = .noneOf set ∧ ∀ c, c ∈ cls.resolve options.alphabet ↔
      cls.accepts c = true ∧ c ∈ options.alphabet.printable

/-- The class that is read of a bracket expression is the one of the expression. The text determines
what is read, so every syntax tree in front of it has the same meaning. -/
theorem isClassOf_of_read {options : Options} {text : List Char} {taken : Nat} {cls : CharClass}
    (h : Bracket.read options.alphabet.space text = .ok (cls, taken)) :
    IsClassOf options text taken cls := by
  have hread : ∀ b : Bracketed, b.text <+: text → b.text.length = taken ∧
      Meaning.accepted cls = b.chars options.alphabet.space := by
    rintro b ⟨after, rfl⟩
    rcases b.read after with ⟨cls', hok, hmeaning⟩ | ⟨e, herror⟩
    · obtain ⟨rfl, rfl⟩ := Prod.mk.inj (Except.ok.inj (hok.symm.trans h))
      exact ⟨rfl, hmeaning⟩
    · rw [h] at herror
      cases herror
  refine ⟨?_, fun b hb c => ?_, ?_, ?_⟩
  · obtain ⟨b, hb⟩ := exists_bracketed h
    exact ⟨b, hb, (hread b hb).1⟩
  · rw [← Meaning.mem_accepted, (hread b hb).2]
    rfl
  · rintro rfl
    exact parse_bracket h
  · cases cls with
    | anyOf set => exact .inl ⟨set, rfl, fun c => mem_resolve_anyOf⟩
    | noneOf set => exact .inr ⟨set, rfl, fun c => mem_resolve_noneOf⟩
    | dot => exact absurd rfl (ne_dot_of_read h)

/-- The class `[^\D5-7]` has the digits but for those from five to seven. -/
theorem isClassOf_digits : ∃ cls,
    Bracket.read ({} : Options).alphabet.space "^\\D5-7]".toList = .ok (cls, 7) ∧
      IsClassOf {} "^\\D5-7]".toList 7 cls ∧
      ∀ c, cls.accepts c = true ↔ ('0' ≤ c ∧ c ≤ '9') ∧ ¬('5' ≤ c ∧ c ≤ '7') := by
  have hend : ∀ space, readItems space 7 [']'] = .ok ([], 8) := fun space => by
    rw [readItems, if_pos rfl]
  have hrange : ∀ space, readItems space 4 ['5', '-', '7', ']'] = .ok ([.range '5' '7'], 8) := by
    intro space
    rw [readItems_range (by decide) (show readItem space '5' ['-', '7', ']'] = .ok (.char '5', 0)
      from rfl) (show _ = ['-', '7', ']'] from rfl) (by decide)]
    show (readItems space 7 [']']).map _ = _
    rw [hend]
    rfl
  have hitems : ∀ space, readItems space 2 ['\\', 'D', '5', '-', '7', ']'] =
      .ok ([.outside .digits, .range '5' '7'], 8) := by
    intro space
    rw [readItems_single (by decide) (show readItem space '\\' ['D', '5', '-', '7', ']'] =
      .ok (.outside .digits, 1) from rfl) (show _ = ['5', '-', '7', ']'] from rfl) (by simp)]
    show (readItems space 4 ['5', '-', '7', ']']).map _ = _
    rw [hrange]
    rfl
  generalize hcls : toClass true [.outside .digits, .range '5' '7'] = cls
  have haccepts : ∀ c, cls.accepts c = true ↔ ('0' ≤ c ∧ c ≤ '9') ∧ ¬('5' ≤ c ∧ c ≤ '7') := by
    intro c
    rw [← hcls, accepts_toClass]
    simp [Item.accepts, CharSet.contains_iff, CharSet.digits]
  have hne : cls ≠ .anyOf ∅ := by
    rintro rfl
    have h0 := CharSet.contains_iff.mp ((haccepts '0').mpr (by decide))
    exact CharSet.not_mem_empty h0
  have hread : Bracket.read ({} : Options).alphabet.space "^\\D5-7]".toList = .ok (cls, 7) := by
    simp only [Bracket.read, bind_eq_ok, check_eq_ok, pure_eq_ok]
    exact ⟨_, hitems _, by simp, by rwa [← hcls] at hne, by rw [← hcls]; rfl⟩
  exact ⟨cls, hread, isClassOf_of_read hread, haccepts⟩

end Exemplar.Grammar
