import Exemplar.Proofs.Pattern.Placement
import Exemplar.Proofs.Text.Brackets
import Exemplar.Proofs.Text.Comparison

/-!
# Trees without pins

A tree without pins is written without anchors, so nothing of it is hidden in its text. If none of
its classes names the null character or one beyond U+FFFF, its text is read as a tree that describes
the same strings, whatever the shape of the tree: sequences without parts, choices with a single
member, nested quantifiers. The tree that is read has no pins either: the topmost node has none, and
reading hides none below it.

## Main definitions

* `CharClass.IsWritable`: the characters of a class are written with at most four digits
* `Tree.IsWritable`: a node without pins that can be told from what is written

## Main results

* `Pattern.parse_text_of_writable`: the text of a tree without pins is read as such a tree
-/

namespace Exemplar

/-- The class names only characters from U+0001 to U+FFFF, and at least one if it is given by what
it includes. -/
def CharClass.IsWritable : CharClass → Prop
  | anyOf set => set ≠ ∅ ∧ ∀ c ∈ set, 0 < c.toNat ∧ c.toNat ≤ 0xFFFF
  | noneOf set => ∀ c ∈ set, 0 < c.toNat ∧ c.toNat ≤ 0xFFFF
  | dot => True

/-- Only the members of the set are looked at, not all characters there are. -/
instance (set : CharSet) : Decidable (∀ c ∈ set, 0 < c.toNat ∧ c.toNat ≤ 0xFFFF) :=
  decidable_of_iff ((set.toList.all fun c => 0 < c.toNat ∧ c.toNat ≤ 0xFFFF) = true)
    (by simp [CharSet.mem_iff])

instance : DecidablePred CharClass.IsWritable
  | .anyOf set => inferInstanceAs
      (Decidable (set ≠ ∅ ∧ ∀ c ∈ set, 0 < c.toNat ∧ c.toNat ≤ 0xFFFF))
  | .noneOf set => inferInstanceAs (Decidable (∀ c ∈ set, 0 < c.toNat ∧ c.toNat ≤ 0xFFFF))
  | .dot => .isTrue trivial

namespace Tree

variable {t : Tree}

/-- The class of a leaf is written as it is, and a choice has members. -/
def HasWritableContents : Tree → Prop
  | leaf cls _ => cls.IsWritable
  | sequence _ _ => True
  | choice members _ => members ≠ []

instance : DecidablePred HasWritableContents
  | leaf cls _ => inferInstanceAs (Decidable cls.IsWritable)
  | sequence _ _ => .isTrue trivial
  | choice members _ => decidable_of_iff (members.isEmpty = false) List.isEmpty_eq_false_iff

/-- A node without pins that can be told from what is written. -/
structure IsWritable (t : Tree) : Prop where
  free : t.pins = .free
  contents : t.HasWritableContents
  /-- The node does not have to occur without limit. -/
  least_lt : t.occurs.least < unbounded

instance : DecidablePred IsWritable := fun t =>
  decidable_of_iff (t.pins = .free ∧ t.HasWritableContents ∧ t.occurs.least < unbounded)
    ⟨fun ⟨hfree, hcontents, hleast⟩ => ⟨hfree, hcontents, hleast⟩,
      fun h => ⟨h.free, h.contents, h.least_lt⟩⟩

end Tree

open Pattern

/-! ## Classes -/

/-- Only the null character is written as a zero behind a backslash. -/
theorem Pattern.eq_null_of_escape {c : Char} (h : escape syntaxChars c = ['\\', '0']) :
    c = '\x00' := by
  have hspelling : Spelling syntaxChars c (escape syntaxChars c) := spelling_escape c fun _ => .inl
  rw [h] at hspelling
  cases hspelling with
  | letter _ _ hread => exact (Prod.mk.inj (Except.ok.inj (hread [] (by simp [Parted])))).1.symm

namespace CharClass

variable {cls : CharClass}

theorem IsWritable.isLegible (h : cls.IsWritable) : cls.IsLegible := by
  have hset : ∀ {set : CharSet}, (∀ c ∈ set, 0 < c.toNat ∧ c.toNat ≤ 0xFFFF) → set.IsLegible :=
    fun hset => CharSet.isLegible_of_digits (fun c hc => (hset c hc).2)
      fun hnull => absurd (hset _ hnull).1 (by decide)
  cases cls with
  | anyOf set => exact hset h.2
  | noneOf set => exact hset h
  | dot => trivial

theorem IsWritable.ne_empty (h : cls.IsWritable) : cls ≠ .anyOf ∅ := by
  rintro rfl
  exact h.1 rfl

/-- A class is not written as the null character: only a single character is written without
brackets, and then it is another one. -/
theorem IsWritable.chars_ne (h : cls.IsWritable) : cls.chars ≠ ['\\', '0'] := by
  cases cls with
  | anyOf set =>
    intro hchars
    rw [chars] at hchars
    split at hchars
    next c hset =>
      have hc : c ∈ set := by rw [CharSet.mem_iff, hset]; exact List.mem_singleton_self c
      exact absurd (h.2 c hc).1 (by rw [eq_null_of_escape hchars]; decide)
    next => cases hchars
  | noneOf set =>
    intro hchars
    rw [chars] at hchars
    split at hchars <;> cases hchars
  | dot =>
    intro hchars
    cases hchars

end CharClass

/-! ## Tokens -/

theorem Extent.quantifier_ne (e : Extent) : e.quantifier ≠ ['\\', '0'] := by
  unfold Extent.quantifier
  split_ifs <;> exact nofun

/-- The tokens of a tree that names no null character may stand in front of any others. -/
theorem Pattern.Token.apart_of_arises {t : Token} (h : t.Arises CharClass.IsWritable) (u : Token) :
    t.Apart u := by
  have hne : t.text ≠ ['\\', '0'] := by
    cases h with
    | caret | dollar | bar | opening | closing => exact nofun
    | ofClass hclass _ => exact hclass.chars_ne
    | ofExtent => exact Extent.quantifier_ne _
  exact fun hnull => absurd hnull hne

namespace Tree

variable {t : Tree}

theorem IsWritable.hasLegibleClass (h : t.IsWritable) : t.HasLegibleClass := by
  have hcontents := h.contents
  cases t with
  | leaf => exact CharClass.IsWritable.isLegible hcontents
  | sequence | choice => trivial

theorem Every.readable_of_writable (h : t.Every IsWritable) : t.Every IsReadable :=
  h.imp fun u hu hs => by
    refine ⟨?_, hu.least_lt⟩
    have hcontents := hu.contents
    cases u with
    | leaf => exact CharClass.IsWritable.ne_empty hcontents
    | sequence => exact isPlaced_of_free fun c hc => (hs c hc).free
    | choice => exact hcontents

/-- The text of a tree without pins has the tokens of the tree. A digit could only become part of an
escaped null character in front of it. -/
theorem tokens_of_writable (h : t.Every IsWritable) (space : CharSet) :
    Pattern.tokens space (t.chars false) = t.tokens false := by
  have harises : ∀ token ∈ t.tokens false, token.Arises CharClass.IsWritable :=
    arises_of_mem_tokens (fun hleaf => hleaf.contents) h.readable_of_writable h false
  have hapart : (t.tokens false).IsChain Token.Apart := List.Pairwise.isChain
    (List.pairwise_of_forall_mem_list fun token htoken u _ =>
      Token.apart_of_arises (harises token htoken) u)
  exact tokens_chars h.readable_of_writable (h.imp fun _ hu _ => hu.hasLegibleClass) hapart space

end Tree

/-! ## Patterns -/

/-- The text of a tree without pins is a pattern, and what is read of it is a tree without pins that
describes the same strings. The tree may have groups that are left out when it is read, so it is not
read as it is. -/
theorem Pattern.parse_text_of_writable (options : Options) {t : Tree}
    (h : t.Every Tree.IsWritable) : ∃ t', parse options t.text.toList = .ok t' ∧
      t'.Every (·.pins = .free) ∧ ∀ M, t'.language M = t.language M := by
  have hshown : t.Every Tree.IsShown := h.imp fun u hu hs =>
    Tree.isShown_of_free hu.free fun c hc => (hs c hc).free
  have hread : ReadsMembers False (t.tokens false) [t] :=
    (reads_tokens False h.readable_of_writable hshown nofun nofun).2 nofun
  have htokens : tokens options.alphabet.space t.text.toList = t.tokens false := by
    rw [Tree.text, String.toList_ofList]
    exact Tree.tokens_of_writable h _
  obtain ⟨t', hparse, ⟨hbuilt, hplain⟩, hlanguage, hpins, -⟩ := hread.parse htokens
  have hfree : t'.pins = .free := by
    rw [← Pins.plain_of_byLook hplain, hpins, (Tree.every_iff.mp h).1.free]
    rfl
  exact ⟨t', hparse, hbuilt.consistent.free hbuilt.held hfree, hlanguage⟩

/-- A choice with a single member, a sequence without parts that is repeated, and a quantifier on a
quantifier. -/
theorem Pattern.parse_text_of_writable_nested : ∃ t t' : Tree,
    t.text = "(?:a)(?:)\x7b2\x7d(?:[^\\-b]\x7b2,5\x7d)?" ∧ t.Every Tree.IsWritable ∧
      parse {} t.text.toList = .ok t' ∧ t'.Every (·.pins = .free) ∧
      ∀ M, t'.language M = t.language M := by
  let outside : Tree := .leaf (.noneOf (.ofAscending ['-', 'b'] (by decide)))
    { occurs := ⟨2, 5, by decide, by decide⟩ }
  let t : Tree := .sequence
    [.choice [.leaf (.literal 'a') {}] {}, .sequence [] { occurs := .exactly 2 },
      .sequence [outside] { occurs := .optional }] {}
  have hwritable : t.Every Tree.IsWritable := by decide +kernel
  obtain ⟨t', hparse, ht'⟩ := parse_text_of_writable {} hwritable
  exact ⟨t, t', by decide +kernel, hwritable, hparse, ht'⟩

end Exemplar
