import Exemplar.Proofs.CharSets
import Exemplar.Proofs.Grammar.Lexing
import Exemplar.Proofs.Pattern.Classes
import Exemplar.Tree.Text
import Mathlib.Data.List.SplitBy

/-!
# Classes and quantifiers in writing

What a class or a quantifier is written as is read as the same class or quantifier, whatever comes
behind it. This has two exceptions. A character beyond U+FFFF has more than four hexadecimal digits,
of which only four are read. And the null character is written as a zero behind a backslash, which
is malformed in front of a digit.

## Main definitions

* `CharSet.IsLegible`, `CharClass.IsLegible`: what is written is read back
* `Parted`: a text that may stand in front of another one
* `Spelling`: how a character is written

## Main results

* `read_body`, `read_negated`: a set between brackets
* `CharClass.read_chars`: a class
* `Extent.read_quantifier`: a quantifier
-/

namespace Exemplar

/-! ## Hexadecimal digits -/

theorem hexDigit?_digitChar {d : Nat} (hd : d < 16) : hexDigit? d.digitChar.toUpper = some d := by
  have h : ∀ d < 16, hexDigit? d.digitChar.toUpper = some d := by decide
  exact h d hd

theorem hexValue?_concat (l : List Char) (c : Char) : hexValue? (l ++ [c]) =
    (hexValue? l).bind fun value => (hexDigit? c).map (value * 16 + ·) := by
  simp only [hexValue?, List.foldlM_append, List.foldlM_cons, List.foldlM_nil, bind_pure]
  rfl

/-- A number is read from its hexadecimal digits. -/
theorem hexValue?_toDigits (n : Nat) :
    hexValue? ((Nat.toDigits 16 n).map Char.toUpper) = some n := by
  induction n using Nat.strongRecOn with
  | ind n ih =>
    rw [Nat.toDigits_eq_if (by decide)]
    split
    next hn =>
      rw [List.map_singleton, ← List.nil_append [_], hexValue?_concat, hexDigit?_digitChar hn]
      simp [hexValue?]
    next hn =>
      rw [List.map_append, List.map_singleton, hexValue?_concat,
        ih (n / 16) (Nat.div_lt_self (by omega) (by decide)), hexDigit?_digitChar (by omega)]
      exact congrArg some (show n / 16 * 16 + n % 16 = n by omega)

theorem hexValue?_zeros (k : Nat) (l : List Char) :
    hexValue? (List.replicate k '0' ++ l) = hexValue? l := by
  induction k with
  | zero => rfl
  | succ k ih => rwa [List.replicate_succ, List.cons_append]

/-- Filling up with zeros does not change a number. -/
theorem hexValue?_upperHex (width n : Nat) : hexValue? (upperHex width n) = some n := by
  rw [upperHex, List.leftpad, hexValue?_zeros, hexValue?_toDigits]

theorem length_upperHex {n : Nat} (h : n ≤ 0xFFFF) : (upperHex 4 n).length = 4 := by
  have hlength : (Nat.toDigits 16 n).length ≤ 4 :=
    (Nat.length_toDigits_le_iff (by decide) (by decide)).mpr (by omega)
  simp only [upperHex, List.leftpad, List.length_append, List.length_replicate, List.length_map]
  omega

namespace Pattern

/-! ## Characters -/

/-- Behind the null character comes no digit. -/
def Parted (c : Char) (rest : List Char) : Prop := c = '\x00' → ∀ d ∈ rest.head?, d.isDigit = false

/-- The letter behind a backslash makes it stand for a character. -/
structure IsCharLetter (letter : Char) : Prop where
  not_boundary : letter ≠ 'b' ∧ letter ≠ 'B'
  not_reference : ¬('1' ≤ letter ∧ letter ≤ '9') ∧ letter ≠ 'k'
  not_named : letter ∉ ['d', 'D', 'w', 'W', 's', 'S']

instance : DecidablePred IsCharLetter := fun letter =>
  decidable_of_iff ((letter ≠ 'b' ∧ letter ≠ 'B') ∧
    (¬('1' ≤ letter ∧ letter ≤ '9') ∧ letter ≠ 'k') ∧ letter ∉ ['d', 'D', 'w', 'W', 's', 'S'])
    ⟨fun h => ⟨h.1, h.2.1, h.2.2⟩, fun h => ⟨h.1, h.2, h.3⟩⟩

theorem IsCharLetter.namedSet? {letter : Char} (h : IsCharLetter letter) (space : CharSet) :
    Escape.namedSet? space letter = none := by
  have := h.not_named
  unfold Escape.namedSet?
  split <;> simp_all

/-- How a character is written where those in `reserved` have a meaning of their own: as it is, as a
letter behind a backslash, or by its code point. -/
inductive Spelling (reserved : List Char) (c : Char) : List Char → Prop where
  | plain : c ∉ reserved → c.toNat ≤ 0xFF → Spelling reserved c [c]
  | letter {letter : Char} : IsCharLetter letter → letter ≠ 'u' →
    (∀ rest, Parted c rest → Escape.readChar letter rest = .ok (c, 0)) →
    Spelling reserved c ['\\', letter]
  | code : Spelling reserved c ('\\' :: 'u' :: upperHex 4 c.toNat)

/-- What a character is escaped as spells it. The null character is followed by no digit, so it
cannot be taken for a back reference. -/
theorem spelling_escape {reserved : List Char} (c : Char)
    (hreserved : ∀ r ∈ reserved, r ∈ syntaxChars ∨ r ∈ bracketChars) :
    Spelling reserved c (escape reserved c) := by
  unfold escape
  split
  any_goals exact .letter (by decide) (by decide) fun _ _ => rfl
  · refine .letter (by decide) (by decide) fun rest hrest => ?_
    have hany : rest.head?.any Char.isDigit = false := by
      cases h : rest.head? with
      | none => rfl
      | some d => exact hrest rfl d h
    rw [Escape.readChar, hany]
    rfl
  · split
    next hmem =>
      have hall : ((syntaxChars ++ bracketChars).all fun r => IsCharLetter r ∧
          r ∉ ['t', 'n', 'r', 'f', 'v', '0', 'c', 'x', 'u']) = true := by decide
      obtain ⟨hletter, hself⟩ := of_decide_eq_true
        (List.all_eq_true.mp hall c (List.mem_append.mpr (hreserved c hmem)))
      refine .letter hletter (fun hu => hself (by simp [hu])) fun rest _ => ?_
      unfold Escape.readChar
      split <;> simp_all
    next hmem =>
      split
      · exact .code
      next hcode =>
        rw [Bool.or_eq_true, decide_eq_true_eq, not_or] at hcode
        exact .plain hmem (by omega)

/-- What a character is written as where the characters in `reserved` have a meaning of their own:
the character itself, or letters behind a backslash that are read as the character. -/
inductive IsEscape (reserved : List Char) (c : Char) : List Char → Prop where
  | plain : c ∉ reserved → IsEscape reserved c [c]
  | letters {letter : Char} {more : List Char} : IsCharLetter letter →
    (∀ rest, Parted c rest → Escape.readChar letter (more ++ rest) = .ok (c, more.length)) →
    IsEscape reserved c ('\\' :: letter :: more)

/-- A character up to U+FFFF is written like that. -/
theorem isEscape_escape {reserved : List Char} {c : Char}
    (hreserved : ∀ r ∈ reserved, r ∈ syntaxChars ∨ r ∈ bracketChars) (hc : c.toNat ≤ 0xFFFF) :
    IsEscape reserved c (escape reserved c) := by
  have hspelling := spelling_escape c hreserved
  generalize escape reserved c = w at hspelling ⊢
  cases hspelling with
  | plain hplain => exact .plain hplain
  | letter hletter _ hread => exact .letters hletter hread
  | code =>
    exact .letters (by decide) fun rest _ =>
      (Grammar.readHex_digits (length_upperHex hc) (hexValue?_upperHex 4 _)).trans
        (by rw [length_upperHex hc])

/-! ## Brackets -/

namespace Bracket

open Grammar

variable {space : CharSet} {c d : Char} {w v after : List Char} {offset : Nat}

/-- What is written of a character between brackets. -/
theorem readItem_escape (space : CharSet) (h : IsEscape bracketChars c w) :
    ∃ first more, w = first :: more ∧ first ≠ ']' ∧ first ≠ '-' ∧ first ≠ '^' ∧
      (first.isDigit = true → first = c) ∧
      ∀ rest, Parted c rest → readItem space first (more ++ rest) = .ok (.char c, more.length) := by
  cases h with
  | plain hplain =>
    simp only [bracketChars, List.mem_cons, List.not_mem_nil, or_false, not_or] at hplain
    refine ⟨c, [], rfl, hplain.2.1, hplain.2.2.2.2, hplain.2.2.2.1, fun _ => rfl, fun rest _ => ?_⟩
    unfold readItem
    rw [if_pos hplain.1]
    rfl
  | @letters letter more hletter hread =>
    refine ⟨'\\', letter :: more, rfl, by decide, by decide, by decide, fun h => ?_,
      fun rest hrest => ?_⟩
    · cases h
    · unfold readItem
      rw [if_neg (by decide), List.cons_append]
      dsimp only
      rw [if_neg hletter.not_boundary.1, if_neg hletter.not_boundary.2,
        if_neg hletter.not_reference.1, hletter.namedSet? space]
      dsimp only
      rw [hread rest hrest]
      rfl

/-- A character by itself. -/
theorem readItems_char (h : IsEscape bracketChars c w) (hafter : after.head? ≠ some '-')
    (hparted : Parted c after) :
    readItems space offset (w ++ after) = (readItems space (offset + w.length) after).map
      fun (items, stop) => (.char c :: items, stop) := by
  obtain ⟨first, more, rfl, hclose, -, -, -, hread⟩ := readItem_escape space h
  rw [List.cons_append, readItems_single hclose (hread after hparted) List.drop_left]
  · rw [List.length_cons, Nat.add_assoc, Nat.add_comm 1]
  · rintro last more' rfl
    exact absurd rfl hafter

/-- A range between two characters. -/
theorem readItems_between (h : IsEscape bracketChars c w) (h' : IsEscape bracketChars d v)
    (hle : ¬d < c) (hparted : Parted d after) :
    readItems space offset (w ++ '-' :: (v ++ after)) =
      (readItems space (offset + (w ++ '-' :: v).length) after).map
        fun (items, stop) => (.range c d :: items, stop) := by
  obtain ⟨first, more, rfl, hclose, -, -, -, hread⟩ := readItem_escape space h
  obtain ⟨last, more', rfl, hclose', -, -, -, hread'⟩ := readItem_escape space h'
  have hminus : Parted c ('-' :: last :: (more' ++ after)) := by
    rintro - d hd
    obtain rfl := Option.some.inj hd
    rfl
  rw [List.cons_append, List.cons_append,
    readItems_range hclose (hread _ hminus) List.drop_left hclose', hread' after hparted]
  dsimp only
  rw [rangeOf, if_neg hle]
  dsimp only
  rw [List.drop_left]
  congr 2
  simp
  omega

/-! ### Runs -/

/-- Characters of which each one follows the one before. -/
def Consecutive (chars : List Char) : Prop := chars.IsChain fun a b => a.toNat + 1 = b.toNat

/-- A run of consecutive characters goes from its first to its last one. -/
theorem mem_iff_of_consecutive {x : Char} {l : List Char} (h : Consecutive (x :: l)) :
    c ∈ x :: l ↔ x ≤ c ∧ c ≤ (x :: l).getLast (by simp) := by
  induction l generalizing x c with
  | nil =>
    rw [List.mem_singleton, List.getLast_singleton]
    exact ⟨fun h => h ▸ ⟨Char.le_refl _, Char.le_refl _⟩, fun h => Char.le_antisymm h.2 h.1⟩
  | cons y l ih =>
    obtain ⟨hxy, hl⟩ := List.isChain_cons_cons.mp h
    have hlast : y ≤ (y :: l).getLast (by simp) := ((ih hl).mp List.mem_cons_self).2
    rw [List.mem_cons, ih hl, List.getLast_cons_cons]
    simp only [CharSet.le_iff_toNat_le] at hlast ⊢
    rw [← Char.toNat_inj]
    omega

/-- What a run is read as: three and more characters as a range, fewer one by one. -/
def runItems (chars : List Char) : List Item :=
  match chars with
  | first :: _ :: _ :: _ => [.range first (chars.getLastD first)]
  | _ => chars.map .char

theorem isEscape_bracket (hc : c.toNat ≤ 0xFFFF) :
    IsEscape bracketChars c (escape bracketChars c) :=
  isEscape_escape (fun _ => .inr) hc

theorem head_escape (h : IsEscape bracketChars d v) (after : List Char) :
    (v ++ after).head? ≠ some '-' ∧ (v ++ after).head? ≠ some '^' := by
  obtain ⟨first, more, rfl, -, hminus, hcaret, -⟩ := readItem_escape ∅ h
  simpa using ⟨hminus, hcaret⟩

/-- An escaped character is not mistaken for a part of what stands in front of it. -/
theorem parted_escape (h : IsEscape bracketChars d v) (hd : c = '\x00' → d.isDigit = false)
    (after : List Char) : Parted c (v ++ after) := by
  obtain ⟨first, more, rfl, -, -, -, hself, -⟩ := readItem_escape ∅ h
  intro hc e he
  obtain rfl : first = e := Option.some.inj he
  by_contra hdigit
  rw [Bool.not_eq_false] at hdigit
  rw [← hself hdigit, hdigit] at hd
  cases hd hc

/-- A run of consecutive characters. One or two characters stand for themselves; from three on, a
run is written as a range. -/
theorem readItems_run {chars : List Char} (hchars : ∀ c ∈ chars, c.toNat ≤ 0xFFFF)
    (h : Consecutive chars) (hafter : after.head? ≠ some '-')
    (hparted : ∀ c ∈ chars.getLast?, Parted c after) :
    readItems space offset (run chars ++ after) =
      (readItems space (offset + (run chars).length) after).map
        fun (items, stop) => (runItems chars ++ items, stop) := by
  match chars, h, hchars, hparted with
  | [], _, _, _ =>
    cases hitems : readItems space offset after <;>
      simp [run, runItems, hitems, Except.map]
  | [a], _, hchars, hparted =>
    have hrun : run [a] = escape bracketChars a := by simp [run]
    rw [hrun]
    exact readItems_char (isEscape_bracket (hchars a (by simp))) hafter (hparted a rfl)
  | [a, b], h, hchars, hparted =>
    have ha := isEscape_bracket (hchars a (by simp))
    have hb := isEscape_bracket (hchars b (by simp))
    have hab : a.toNat + 1 = b.toNat := (List.isChain_cons_cons.mp h).1
    have hnodigit : a = '\x00' → b.isDigit = false := by
      rintro rfl
      have : b = '\x01' := Char.toNat_inj.mp hab.symm
      rw [this]
      rfl
    have htext : run [a, b] ++ after =
        escape bracketChars a ++ (escape bracketChars b ++ after) := by simp [run]
    rw [htext, readItems_char ha (head_escape hb after).1 (parted_escape hb hnodigit after),
      readItems_char hb hafter (hparted b rfl)]
    have hlength : offset + (run [a, b]).length =
        offset + (escape bracketChars a).length + (escape bracketChars b).length := by
      simp [run, Nat.add_assoc]
    rw [hlength]
    cases readItems space _ after <;> simp [runItems, Except.map]
  | a :: b :: c :: l, h, hchars, hparted =>
    obtain ⟨z, hlast⟩ : ∃ z, (a :: b :: c :: l).getLast? = some z :=
      ⟨_, List.getLast?_eq_some_getLast (List.cons_ne_nil a _)⟩
    have hlastD : (a :: b :: c :: l).getLastD a = z := by
      rw [List.getLastD_eq_getLast?, hlast]
      rfl
    have hz : z ∈ a :: b :: c :: l := List.mem_of_getLast? hlast
    have ha := isEscape_bracket (hchars a (by simp))
    have hz' := isEscape_bracket (hchars z hz)
    have hle : ¬z < a := Char.not_lt.mpr ((mem_iff_of_consecutive h).mp hz).1
    have hrun : run (a :: b :: c :: l) =
        escape bracketChars a ++ '-' :: escape bracketChars z := by
      rw [run, hlastD]
    have hitems : runItems (a :: b :: c :: l) = [.range a z] := by
      rw [runItems, hlastD]
    rw [hrun, hitems, List.append_assoc, List.cons_append]
    exact readItems_between ha hz' hle (hparted z hlast)

theorem run_cons (a : Char) (l : List Char) :
    ∃ more, run (a :: l) = escape bracketChars a ++ more := by
  match l with
  | [] => exact ⟨[], by simp [run]⟩
  | [b] => exact ⟨escape bracketChars b, by simp [run]⟩
  | b :: c :: l => exact ⟨_, rfl⟩

/-- No digit comes behind the null character. -/
def Spaced (chars : List Char) : Prop := chars.IsChain fun c d => c = '\x00' → d.isDigit = false

instance : DecidablePred Spaced := fun chars =>
  inferInstanceAs (Decidable (chars.IsChain fun c d => c = '\x00' → d.isDigit = false))

/-- Runs up to the closing bracket. Behind a run comes another one or the bracket. -/
theorem readItems_runs {runs : List (List Char)} (hne : [] ∉ runs)
    (hchars : ∀ chars ∈ runs, ∀ c ∈ chars, c.toNat ≤ 0xFFFF)
    (h : ∀ chars ∈ runs, Consecutive chars) (hspaced : Spaced runs.flatten) (rest : List Char) :
    readItems space offset (runs.flatMap run ++ ']' :: rest) =
      .ok (runs.flatMap runItems, offset + (runs.flatMap run).length + 1) := by
  induction runs generalizing offset with
  | nil => simp [readItems]
  | cons chars runs ih =>
    rw [List.mem_cons, not_or] at hne
    rw [List.forall_mem_cons] at hchars h
    rw [Spaced, List.flatten_cons, List.isChain_append] at hspaced
    have hrest : readItems space (offset + (run chars).length) (runs.flatMap run ++ ']' :: rest) =
        .ok (runs.flatMap runItems,
          offset + (run chars).length + (runs.flatMap run).length + 1) :=
      ih hne.2 hchars.2 h.2 hspaced.2.1
    have hafter : (runs.flatMap run ++ ']' :: rest).head? ≠ some '-' ∧
        ∀ c ∈ chars.getLast?, Parted c (runs.flatMap run ++ ']' :: rest) := by
      cases runs with
      | nil =>
        refine ⟨by simp, fun c _ _ d hd => ?_⟩
        obtain rfl := Option.some.inj hd
        rfl
      | cons next runs =>
        cases next with
        | nil => exact absurd List.mem_cons_self hne.2
        | cons a l =>
          obtain ⟨more, hmore⟩ := run_cons a l
          have ha := isEscape_bracket (hchars.2 _ List.mem_cons_self a List.mem_cons_self)
          rw [List.flatMap_cons, hmore, List.append_assoc, List.append_assoc]
          exact ⟨(head_escape ha _).1, fun c hc => parted_escape ha (hspaced.2.2 c hc a rfl) _⟩
    rw [List.flatMap_cons, List.append_assoc, readItems_run hchars.1 h.1 hafter.1 hafter.2, hrest]
    simp [Except.map, Nat.add_assoc, Nat.add_comm]

theorem deny?_of_mem_runItems {chars : List Char} {item : Item} (h : item ∈ runItems chars) :
    item.deny? = none := by
  unfold runItems at h
  split at h
  · rw [List.mem_singleton.mp h]
    rfl
  · obtain ⟨c, -, rfl⟩ := List.mem_map.mp h
    rfl

/-- A run is read as its characters. -/
theorem accepts_runItems {chars : List Char} (h : Consecutive chars) :
    (∃ item ∈ runItems chars, item.accepts c = true) ↔ c ∈ chars := by
  match chars, h with
  | [], _ => simp [runItems]
  | [a], _ => simp [runItems, Item.accepts, @eq_comm _ a c]
  | [a, b], _ => simp [runItems, Item.accepts, @eq_comm _ a c, @eq_comm _ b c]
  | a :: b :: d :: l, h =>
    have hlast : (a :: b :: d :: l).getLastD a = (a :: b :: d :: l).getLast (by simp) := by
      rw [List.getLastD_eq_getLast?, List.getLast?_eq_some_getLast (List.cons_ne_nil a _)]
      rfl
    rw [mem_iff_of_consecutive h, runItems, hlast]
    simp [Item.accepts]

end Bracket

end Pattern

/-! ## Classes -/

/-- What is written of the set is read back as the set. -/
structure CharSet.IsLegible (set : CharSet) : Prop where
  chars : ∀ c ∈ set, c.toNat ≤ 0xFFFF
  spaced : Pattern.Bracket.Spaced set.toList

instance : DecidablePred CharSet.IsLegible := fun set =>
  decidable_of_iff
    ((set.toList.all fun c => c.toNat ≤ 0xFFFF) = true ∧ Pattern.Bracket.Spaced set.toList)
    ⟨fun h => ⟨by simpa [CharSet.mem_iff] using h.1, h.2⟩,
      fun h => ⟨by simpa [CharSet.mem_iff] using h.chars, h.spaced⟩⟩

namespace Pattern.Bracket

variable {set : CharSet}

/-- The members of a set, divided into runs of consecutive characters. -/
def runs (set : CharSet) : List (List Char) :=
  set.toList.splitBy fun a b => a.toNat + 1 = b.toNat

theorem body_eq (set : CharSet) : body set = (runs set).flatMap run := rfl

theorem flatten_runs (set : CharSet) : (runs set).flatten = set.toList := List.flatten_splitBy _ _

theorem nil_notMem_runs (set : CharSet) : [] ∉ runs set := List.nil_notMem_splitBy _ _

theorem consecutive_of_mem {chars : List Char} (h : chars ∈ runs set) : Consecutive chars :=
  (List.isChain_of_mem_splitBy h).imp fun _ _ => of_decide_eq_true

theorem mem_iff_exists_run {c : Char} : c ∈ set ↔ ∃ chars ∈ runs set, c ∈ chars := by
  rw [CharSet.mem_iff, ← List.mem_flatten, flatten_runs]

/-- The items that the members of a set are read as. -/
def bodyItems (set : CharSet) : List Item := (runs set).flatMap runItems

theorem deny?_bodyItems {item : Item} (h : item ∈ bodyItems set) : item.deny? = none := by
  obtain ⟨chars, -, hitem⟩ := List.mem_flatMap.mp h
  exact deny?_of_mem_runItems hitem

/-- The runs of a set allow its members. -/
theorem allowed_bodyItems (set : CharSet) : allowed (bodyItems set) = set := by
  apply CharSet.eq_of_mem_iff
  intro c
  rw [mem_allowed, mem_iff_exists_run]
  constructor
  · rintro ⟨item, hitem, -, h⟩
    obtain ⟨chars, hchars, hitem⟩ := List.mem_flatMap.mp hitem
    exact ⟨chars, hchars, (accepts_runItems (consecutive_of_mem hchars)).mp ⟨item, hitem, h⟩⟩
  · rintro ⟨chars, hchars, hc⟩
    obtain ⟨item, hitem, h⟩ := (accepts_runItems (consecutive_of_mem hchars)).mpr hc
    exact ⟨item, List.mem_flatMap.mpr ⟨chars, hchars, hitem⟩, deny?_of_mem_runItems hitem, h⟩

/-- The runs of a set are read as the class of the set. -/
theorem toClass_bodyItems (negated : Bool) (set : CharSet) :
    toClass negated (bodyItems set) = if negated then .noneOf set else .anyOf set := by
  have hdenied : denied? (bodyItems set) = none := by
    have hnil : (bodyItems set).filterMap Item.deny? = [] :=
      List.filterMap_eq_nil_iff.mpr fun _ => deny?_bodyItems
    rw [denied?, hnil]
  unfold toClass
  rw [hdenied, allowed_bodyItems]
  cases negated <;> rfl

theorem isEmpty_bodyItems (h : set ≠ ∅) : (bodyItems set).isEmpty = false := by
  cases hitems : bodyItems set with
  | nil =>
    have := allowed_bodyItems set
    rw [hitems] at this
    exact absurd this.symm h
  | cons => rfl

/-- The members of a set up to the closing bracket. -/
theorem readItems_body (h : set.IsLegible) (space : CharSet) (offset : Nat) (rest : List Char) :
    readItems space offset (body set ++ ']' :: rest) =
      .ok (bodyItems set, offset + (body set).length + 1) := by
  refine readItems_runs (nil_notMem_runs set) ?_ (fun _ => consecutive_of_mem) ?_ rest
  · intro chars hchars c hc
    exact h.chars c (mem_iff_exists_run.mpr ⟨chars, hchars, hc⟩)
  · rw [flatten_runs]
    exact h.spaced

/-- A set does not begin like a negated one. -/
theorem head_body (hlegible : set.IsLegible) (h : set ≠ ∅) (rest : List Char) :
    (body set ++ rest).head? ≠ some '^' := by
  have hflatten := flatten_runs set
  have hne := nil_notMem_runs set
  rw [body_eq]
  generalize runs set = runs at hflatten hne
  match runs with
  | [] => exact absurd (CharSet.ext_toList hflatten.symm) h
  | [] :: _ => exact absurd List.mem_cons_self hne
  | (a :: l) :: runs =>
    obtain ⟨more, hmore⟩ := run_cons a l
    have ha : a ∈ set := by
      rw [CharSet.mem_iff, ← hflatten]
      simp
    rw [List.flatMap_cons, hmore, List.append_assoc, List.append_assoc]
    exact (head_escape (isEscape_bracket (hlegible.chars a ha)) _).2

/-- A set between brackets. -/
theorem read_body (hlegible : set.IsLegible) (h : set ≠ ∅) (space : CharSet) (rest : List Char) :
    Bracket.read space (body set ++ ']' :: rest) = .ok (.anyOf set, (body set).length + 1) := by
  have hcls : CharClass.anyOf set ≠ .anyOf ∅ := fun heq => h (CharClass.anyOf.inj heq)
  have hhead := head_body hlegible h (']' :: rest)
  have hclass : toClass false (bodyItems set) = .anyOf set := toClass_bodyItems false set
  unfold Bracket.read
  simp only [hhead, decide_false, if_false, List.drop_zero, readItems_body hlegible,
    bind_eq_ok, check_eq_ok, pure_eq_ok]
  refine ⟨_, rfl, by simp [isEmpty_bodyItems h], by rw [hclass]; exact hcls, ?_⟩
  simp [hclass]
  omega

/-- The characters outside of a set. -/
theorem read_negated (hlegible : set.IsLegible) (h : set ≠ ∅) (space : CharSet)
    (rest : List Char) : Bracket.read space ('^' :: (body set ++ ']' :: rest)) =
      .ok (.noneOf set, (body set).length + 2) := by
  have hclass : toClass true (bodyItems set) = .noneOf set := toClass_bodyItems true set
  unfold Bracket.read
  simp only [List.head?_cons, decide_true, if_true, List.drop_succ_cons, List.drop_zero,
    readItems_body hlegible, bind_eq_ok, check_eq_ok, pure_eq_ok]
  refine ⟨_, rfl, by simp [isEmpty_bodyItems h], by rw [hclass]; nofun, ?_⟩
  simp [hclass]
  omega

/-- All characters: those in a set and those outside of it. -/
theorem read_everything (space : CharSet) (rest : List Char) :
    Bracket.read space ('\\' :: 's' :: '\\' :: 'S' :: ']' :: rest) = .ok (.noneOf ∅, 5) := by
  have hend : readItems space 5 (']' :: rest) = .ok ([], 6) := by simp [readItems]
  have hsecond : readItems space 3 ('\\' :: 'S' :: ']' :: rest) = .ok ([.outside space], 6) := by
    rw [Grammar.readItems_single (by decide)
      (show readItem space '\\' ('S' :: ']' :: rest) = .ok (.outside space, 1) from rfl)
      (show _ = ']' :: rest from rfl) (by simp), hend]
    rfl
  have hitems : readItems space 1 ('\\' :: 's' :: '\\' :: 'S' :: ']' :: rest) =
      .ok ([.inside space, .outside space], 6) := by
    rw [Grammar.readItems_single (by decide)
      (show readItem space '\\' ('s' :: '\\' :: 'S' :: ']' :: rest) = .ok (.inside space, 1)
        from rfl)
      (show _ = '\\' :: 'S' :: ']' :: rest from rfl) (by simp), hsecond]
    rfl
  have hclass : toClass false [.inside space, .outside space] = .noneOf ∅ := by
    have hempty : space.diff ((∅ : CharSet).union space) = ∅ :=
      CharSet.eq_of_mem_iff fun c => by simp [CharSet.mem_diff]
    exact congrArg _ hempty
  unfold Bracket.read
  simp only [bind_eq_ok, check_eq_ok, pure_eq_ok]
  exact ⟨_, hitems, by simp, by simp [hclass], by simp [hclass]⟩

end Pattern.Bracket

/-- What is written of the class is read back as the class. -/
def CharClass.IsLegible : CharClass → Prop
  | anyOf set | noneOf set => set.IsLegible
  | dot => True

instance : DecidablePred CharClass.IsLegible
  | .anyOf set | .noneOf set => inferInstanceAs (Decidable set.IsLegible)
  | .dot => .isTrue trivial

namespace Pattern

/-- An escaped character is read as this character. -/
theorem read_escape {c : Char} {w : List Char} (h : IsEscape syntaxChars c w) (space : CharSet) :
    ∃ first more, w = first :: more ∧ ∀ rest, Parted c rest →
      Lexeme.read space first (more ++ rest) = (.atom (.literal c), more.length) := by
  cases h with
  | plain hplain =>
    refine ⟨c, [], rfl, fun rest _ => ?_⟩
    unfold Lexeme.read
    split <;> simp_all [syntaxChars]
  | @letters letter more hletter hread =>
    refine ⟨'\\', letter :: more, rfl, fun rest hrest => ?_⟩
    have hescape : Escape.read space (letter :: more ++ rest) =
        .ok (.literal c, more.length + 1) := by
      rw [List.cons_append, Escape.read,
        if_neg (not_or.mpr hletter.not_boundary), if_neg hletter.not_reference.1,
        if_neg hletter.not_reference.2, hletter.namedSet? space]
      dsimp only
      rw [hread rest hrest]
      rfl
    unfold Lexeme.read
    simp only [hescape]
    rfl

end Pattern

open Pattern

/-- What a class is written as. -/
theorem CharClass.read_chars {cls : CharClass} (h : cls.IsLegible) (hne : cls ≠ .anyOf ∅)
    (space : CharSet) : ∃ first more, cls.chars = first :: more ∧ ∀ rest,
      (cls.chars = ['\\', '0'] → ∀ d ∈ rest.head?, d.isDigit = false) →
        Lexeme.read space first (more ++ rest) = (.atom cls, more.length) := by
  -- A class in brackets.
  have hbracket : ∀ w, cls.chars = '[' :: w →
      (∀ rest, Bracket.read space (w ++ rest) = .ok (cls, w.length)) →
      ∃ first more, cls.chars = first :: more ∧ ∀ rest,
        (cls.chars = ['\\', '0'] → ∀ d ∈ rest.head?, d.isDigit = false) →
          Lexeme.read space first (more ++ rest) = (.atom cls, more.length) := by
    intro w hw hread
    refine ⟨'[', w, hw, fun rest _ => ?_⟩
    unfold Lexeme.read
    simp only [hread]
  cases cls with
  | dot => exact ⟨'.', [], rfl, fun _ _ => rfl⟩
  | noneOf set =>
    by_cases hset : set = ∅
    · subst hset
      exact hbracket _ rfl (Bracket.read_everything space)
    · have hempty : set.isEmpty = false :=
        Bool.eq_false_of_not_eq_true (mt CharSet.isEmpty_iff.mp hset)
      refine hbracket ('^' :: Bracket.body set ++ [']']) (by simp [chars, hempty]) fun rest => ?_
      simpa using Bracket.read_negated h hset space rest
  | anyOf set =>
    have hset : set ≠ ∅ := fun heq => hne (heq ▸ rfl)
    match hmem : set.toList with
    | [c] =>
      have hc : set = .singleton c := CharSet.ext_toList hmem
      have hchars : (anyOf set).chars = escape syntaxChars c := by rw [chars, hmem]
      obtain ⟨first, more, htext, hread⟩ := read_escape
        (isEscape_escape (fun _ => .inl) (h.chars c (by simp [hc]))) space
      refine ⟨first, more, hchars.trans htext, fun rest hrest => ?_⟩
      rw [hc]
      refine hread rest ?_
      rintro rfl
      exact hrest hchars
    | [] => exact absurd (CharSet.ext_toList hmem) hset
    | a :: b :: l =>
      refine hbracket (Bracket.body set ++ [']']) (by rw [chars, hmem]; rfl) fun rest => ?_
      simpa using Bracket.read_body h hset space rest

/-! ## Quantifiers -/

/-- A number as it is written. -/
def numeral (n : Nat) : Grammar.Numeral :=
  ⟨decimal n, Nat.toDigits_ne_nil, fun _ => isDigit_of_mem_decimal⟩

theorem readDecimal_decimal {n : Nat} (hn : n < unbounded) {c : Char} (hc : c.isDigit = false)
    (offset : Nat) (rest : List Char) :
    readDecimal offset (decimal n ++ c :: rest) = .ok (n, (decimal n).length) := by
  have hvalue : (numeral n).value = n := decimalValue_decimal n
  rcases (numeral n).read offset rest hc with ⟨hread, -⟩ | ⟨hlarge, -⟩
  · rwa [hvalue] at hread
  · rw [hvalue] at hlarge
    exact absurd hlarge (Nat.not_le.mpr hn)

theorem readBraces_exactly {n : Nat} (hn : n < unbounded) (rest : List Char) :
    readBraces (decimal n ++ '\x7d' :: rest) = .ok (.exactly n, (decimal n).length + 1) :=
  Grammar.readBraces_one (readDecimal_decimal hn (by decide) 1 rest) List.drop_left

theorem readBraces_atLeast {n : Nat} (hn : n < unbounded) (rest : List Char) :
    readBraces (decimal n ++ ',' :: '\x7d' :: rest) =
      .ok (.atLeast n, (decimal n).length + 2) :=
  Grammar.readBraces_open (readDecimal_decimal hn (by decide) 1 ('\x7d' :: rest)) List.drop_left

/-- Two numbers in braces are read as the extent between them. -/
theorem readBraces_between {e : Extent} (h : e.most < unbounded) (rest : List Char) :
    readBraces (decimal e.least ++ ',' :: (decimal e.most ++ '\x7d' :: rest)) =
      .ok (e, (decimal e.least).length + 1 + (decimal e.most).length + 1) := by
  have hleast := Nat.lt_of_le_of_lt e.least_le_most h
  have hends : Extent.ofEnds e.least e.most = .ok e := by
    rw [Extent.ofEnds, dif_pos e.least_le_most]
    exact congrArg _ (Extent.ext (Nat.min_eq_left hleast.le) (Nat.min_eq_left h.le))
  exact Grammar.readBraces_two
    (readDecimal_decimal hleast (by decide) 1 (decimal e.most ++ '\x7d' :: rest)) List.drop_left
    (readDecimal_decimal h (by decide) ((decimal e.least).length + 2) rest) List.drop_left hends

/-- The lexeme of a quantifier. -/
def Extent.lexeme (e : Extent) : Lexeme := if e = .optional then .question else .times e

/-- What a quantifier is written as. -/
theorem Extent.read_quantifier {e : Extent} (h : e.least < unbounded) (space : CharSet) :
    ∃ first more, e.quantifier = first :: more ∧ ∀ rest,
      Lexeme.read space first (more ++ rest) = (e.lexeme, more.length) := by
  -- A quantifier in braces.
  have hbraces : ∀ w, e.quantifier = '\x7b' :: w → e ≠ .optional →
      (∀ rest, readBraces (w ++ rest) = .ok (e, w.length)) →
      ∃ first more, e.quantifier = first :: more ∧ ∀ rest,
        Lexeme.read space first (more ++ rest) = (e.lexeme, more.length) := by
    intro w hw hne hread
    refine ⟨'\x7b', w, hw, fun rest => ?_⟩
    unfold Lexeme.read
    simp only [hread, lexeme, if_neg hne]
  unfold quantifier at hbraces ⊢
  split
  next hopen =>
    have hmost : e.most = unbounded := of_decide_eq_true hopen
    rw [if_pos hopen] at hbraces
    split
    next h0 =>
      obtain rfl : e = .any := Extent.ext h0 hmost
      exact ⟨'*', [], rfl, fun _ => rfl⟩
    next h0 =>
      rw [if_neg h0] at hbraces
      split
      next h1 =>
        obtain rfl : e = .atLeast 1 := Extent.ext h1 hmost
        exact ⟨'+', [], rfl, fun _ => rfl⟩
      next h1 =>
        rw [if_neg h1] at hbraces
        refine hbraces (decimal e.least ++ [',', '\x7d']) rfl ?_ fun rest => ?_
        · rintro rfl
          cases hopen
        · have he : Extent.atLeast e.least = e := Extent.ext (Nat.min_eq_left h.le) hmost.symm
          rw [List.append_assoc, List.cons_append, List.cons_append, List.nil_append,
            readBraces_atLeast h, he]
          simp
  next hclosed =>
    have hmost : e.most < unbounded :=
      Nat.lt_of_le_of_ne e.most_le_unbounded fun heq => hclosed (decide_eq_true heq)
    rw [if_neg hclosed] at hbraces
    split
    next hoptional =>
      obtain rfl : e = .optional := Extent.ext hoptional.1 hoptional.2
      exact ⟨'?', [], rfl, fun _ => rfl⟩
    next hoptional =>
      rw [if_neg hoptional] at hbraces
      have hne : e ≠ .optional := by
        rintro rfl
        exact hoptional ⟨rfl, rfl⟩
      split
      next hexact =>
        rw [if_pos hexact] at hbraces
        refine hbraces (decimal e.least ++ ['\x7d']) rfl hne fun rest => ?_
        have he : Extent.exactly e.least = e :=
          Extent.ext (Nat.min_eq_left h.le) ((Nat.min_eq_left h.le).trans hexact)
        rw [List.append_assoc, List.cons_append, List.nil_append, readBraces_exactly h, he]
        simp
      next hexact =>
        rw [if_neg hexact] at hbraces
        refine hbraces (decimal e.least ++ ',' :: decimal e.most ++ ['\x7d']) (by simp) hne
          fun rest => ?_
        have htext : decimal e.least ++ ',' :: decimal e.most ++ ['\x7d'] ++ rest =
            decimal e.least ++ ',' :: (decimal e.most ++ '\x7d' :: rest) := by simp
        rw [htext, readBraces_between hmost]
        simp
        omega

end Exemplar
