import Exemplar.Proofs.Lengths
import Exemplar.Proofs.Text.Distinct
import Exemplar.Proofs.Text.RoundTrip

/-!
# Generators with the same text

Generators are compared by their texts. Trees that are written with the same tokens describe the
same strings, although they may be grouped in other ways, and not all of their anchors can be told
from what is written: anchors do not matter to the strings, and without them each tree is read from
its tokens. So generators with the same text generate the same strings, unless the text could be
that of two lists of tokens.

## Main definitions

* `Tree.unanchored`: a tree without anchors

## Main results

* `Tree.language_unanchored`, `Tree.tokens_unanchored`: the strings and the tokens of a tree without
  anchors
* `Tree.language_eq_of_tokens_eq`: the strings of a tree can be told from its tokens
* `language_eq_of_beq`: generators that compare equal have the same strings
-/

namespace Exemplar

open Pattern

namespace Pattern.Token

/-- Whether the token is an anchor. -/
def isAnchor (t : Token) : Bool := t.lexeme = .caret || t.lexeme = .dollar

@[simp] theorem isAnchor_caret : caret.isAnchor = true := rfl

@[simp] theorem isAnchor_dollar : dollar.isAnchor = true := rfl

@[simp] theorem isAnchor_bar : bar.isAnchor = false := rfl

@[simp] theorem isAnchor_opening : opening.isAnchor = false := rfl

@[simp] theorem isAnchor_closing : closing.isAnchor = false := rfl

@[simp] theorem isAnchor_ofClass (cls : CharClass) : (ofClass cls).isAnchor = false := rfl

@[simp] theorem isAnchor_ofExtent (e : Extent) : (ofExtent e).isAnchor = false := by
  simp only [isAnchor, ofExtent, Extent.lexeme]
  split <;> rfl

end Pattern.Token

namespace Tree

variable {M : Meaning}

/-! ## Trees without anchors -/

/-- The tree as the only part of a sequence, if the condition holds. -/
def enclosedIf (b : Bool) (t : Tree) : Tree := if b then ofParts [t] else t

mutual

/-- The tree without anchors. Where an anchor made a group necessary, a sequence stands instead. -/
def unanchored : Tree → Tree
  | leaf cls m => enclosedIf ((leaf cls m).ownPins ≠ .free) (leaf cls { occurs := m.occurs })
  | sequence parts m => sequence (unanchoredAll parts) { occurs := m.occurs }
  | choice members m =>
    enclosedIf (choice members m).ownPins.isPinned
      (choice (unanchoredAll members) { occurs := m.occurs })

/-- Each tree without anchors. -/
def unanchoredAll : List Tree → List Tree
  | [] => []
  | t :: ts => unanchored t :: unanchoredAll ts

end

theorem unanchoredAll_eq_map (ts : List Tree) : unanchoredAll ts = ts.map unanchored := by
  induction ts with
  | nil => rfl
  | cons t ts ih => rw [unanchoredAll, ih, List.map_cons]

/-! ### Strings -/

theorem language_enclosedIf (b : Bool) (t : Tree) :
    (enclosedIf b t).language M = t.language M := by
  unfold enclosedIf
  split
  · rw [language_ofParts, languageOfParts_singleton]
  · rfl

/-- Anchors do not matter to the strings of a tree. -/
theorem language_unanchored (t : Tree) : t.unanchored.language M = t.language M := by
  induction t with
  | leaf cls m =>
    rw [unanchored, language_enclosedIf]
    rfl
  | sequence parts m ih =>
    rw [unanchored, unanchoredAll_eq_map, language, language, languageOfParts_map ih]
  | choice members m ih =>
    rw [unanchored, language_enclosedIf, unanchoredAll_eq_map, language, language,
      languageOfMembers_map ih]

/-! ### Pins -/

theorem pins_enclosedIf (b : Bool) (t : Tree) : (enclosedIf b t).pins = t.pins := by
  unfold enclosedIf
  split <;> rfl

@[simp] theorem pins_unanchored (t : Tree) : t.unanchored.pins = .free := by
  cases t with
  | leaf => rw [unanchored, pins_enclosedIf]; rfl
  | sequence => rw [unanchored]; rfl
  | choice => rw [unanchored, pins_enclosedIf]; rfl

theorem ownPins_of_free {t : Tree} (h : t.pins = .free) : t.ownPins = .free := by
  rw [ownPins, h]
  rfl

/-- A tree without pins has nothing to show. -/
theorem isShown_of_free {t : Tree} (h : t.pins = .free) (hs : ∀ u ∈ t.children, u.pins = .free) :
    t.IsShown := by
  have hon : ∀ side, (t.derivedPins.on side).plain = .free := fun side =>
    free_derived fun u hu => by
      rw [hs u (mem_children_of_outermost hu), Pins.on_free]
      rfl
  have hderived : t.derivedPins.plain = .free := congrArg₂ Pins.mk (hon .front) (hon .back)
  refine ⟨?_, .inr hderived⟩
  rw [h, hderived, ownPins_of_free h]
  rfl

/-- Parts without pins may stand anywhere. -/
theorem isPlaced_of_free {parts : List Tree} (h : ∀ t ∈ parts, t.pins = .free) :
    IsPlaced parts := by
  intro side t ht
  have hmem : t ∈ parts := by
    cases side with
    | front => exact List.mem_of_mem_tail ht
    | back => exact List.mem_of_mem_dropLast ht
  rw [h t hmem, Pins.on_free]
  rfl

theorem every_enclosedIf {t : Tree} (b : Bool) (h : t.Every fun u => u.IsRegular ∧ u.pins = .free) :
    (enclosedIf b t).Every fun u => u.IsRegular ∧ u.pins = .free := by
  unfold enclosedIf
  split
  · exact .node _ ⟨⟨isPlaced_singleton t, show (1 : Nat) < unbounded by decide⟩,
      (every_iff.mp h).1.2⟩ (List.forall_mem_singleton.mpr h)
  · exact h

/-- Without anchors a regular tree stays regular, and no node of it is pinned. -/
theorem every_unanchored {t : Tree} (h : t.Every IsRegular) :
    t.unanchored.Every fun u => u.IsRegular ∧ u.pins = .free := by
  induction t with
  | leaf cls m =>
    obtain ⟨ht, -⟩ := every_iff.mp h
    rw [unanchored]
    exact every_enclosedIf _ (.node _ ⟨⟨ht.shape, ht.least_lt⟩, rfl⟩ nofun)
  | sequence parts m ih =>
    obtain ⟨ht, hs⟩ := every_iff.mp h
    have hplaced : IsPlaced (parts.map unanchored) := isPlaced_of_free (by simp)
    rw [unanchored, unanchoredAll_eq_map]
    refine .node _ ⟨⟨hplaced, ht.least_lt⟩, rfl⟩ fun u hu => ?_
    obtain ⟨t, ht, rfl⟩ := List.mem_map.mp hu
    exact ih t ht (hs t ht)
  | choice members m ih =>
    obtain ⟨ht, hs⟩ := every_iff.mp h
    have hlength : 2 ≤ (members.map unanchored).length := (List.length_map _).symm ▸ ht.shape
    rw [unanchored, unanchoredAll_eq_map]
    refine every_enclosedIf _ (.node _ ⟨⟨hlength, ht.least_lt⟩, rfl⟩ fun u hu => ?_)
    obtain ⟨t, ht, rfl⟩ := List.mem_map.mp hu
    exact ih t ht (hs t ht)

/-! ### Tokens -/

/-- The tokens of a node without pins. -/
theorem enclosedTokens_of_free {t : Tree} (h : t.pins = .free) (inSequence : Bool)
    (inner : List Token) : t.enclosedTokens inSequence inner = t.bodyTokens inSequence inner := by
  rw [enclosedTokens, ownPins_of_free h]
  exact List.append_nil _

/-- The tokens but for anchors. -/
def withoutAnchors (ts : List Token) : List Token := ts.filter fun t => !t.isAnchor

theorem withoutAnchors_append (ts us : List Token) :
    withoutAnchors (ts ++ us) = withoutAnchors ts ++ withoutAnchors us :=
  List.filter_append ..

theorem withoutAnchors_enclosedTokens (inSequence : Bool) (t : Tree) (inner : List Token) :
    withoutAnchors (t.enclosedTokens inSequence inner) =
      t.bodyTokens inSequence (withoutAnchors inner) := by
  unfold enclosedTokens bodyTokens withoutAnchors
  split <;> split <;> split <;> split <;> simp

/-- Without its anchors a tree is a plain leaf just if it was one: neither a character with an
anchor nor a sequence is plain. -/
theorem isPlainLeaf_unanchored (t : Tree) : t.unanchored.isPlainLeaf = t.isPlainLeaf := by
  cases t with
  | leaf cls m =>
    rw [unanchored, enclosedIf]
    split
    next hown => simp [isPlainLeaf, ofParts, of_decide_eq_true hown]
    next hown =>
      have hfree : (leaf cls m).ownPins = .free := by simpa using hown
      simp [isPlainLeaf, hfree, ownPins_leaf]
  | sequence => rw [unanchored]; rfl
  | choice members m =>
    rw [unanchored, enclosedIf]
    split <;> rfl

theorem isGrouped_sequence_unanchored (inSequence : Bool) (parts : List Tree) (m : Mark) :
    (sequence (parts.map unanchored) { occurs := m.occurs }).isGrouped inSequence =
      (sequence parts m).isGrouped inSequence := by
  simp [isGrouped_sequence, List.head?_map, Option.any_map, isPlainLeaf_unanchored]

theorem tokensOfParts_map {f : Tree → Tree} {parts : List Tree}
    (h : ∀ t ∈ parts, (f t).tokens true = withoutAnchors (t.tokens true)) :
    tokensOfParts (parts.map f) = withoutAnchors (tokensOfParts parts) := by
  induction parts with
  | nil => rfl
  | cons t ts ih =>
    rw [List.forall_mem_cons] at h
    rw [List.map_cons, tokensOfParts, tokensOfParts, withoutAnchors_append, h.1, ih h.2]

/-- Members that lose their anchors lose them one by one. -/
theorem tokensOfMembers_map {f : Tree → Tree} {members : List Tree}
    (h : ∀ t ∈ members, (f t).tokens false = withoutAnchors (t.tokens false)) :
    tokensOfMembers (members.map f) = withoutAnchors (tokensOfMembers members) := by
  induction members with
  | nil => rfl
  | cons t ts ih =>
    rw [List.forall_mem_cons] at h
    cases ts with
    | nil => exact h.1
    | cons u ts =>
      have htail : withoutAnchors (.bar :: tokensOfMembers (u :: ts)) =
          .bar :: withoutAnchors (tokensOfMembers (u :: ts)) := by simp [withoutAnchors]
      rw [tokensOfMembers, withoutAnchors_append, htail, ← h.1, ← ih h.2]
      rfl

/-- A group that is asked for is written where a sequence would ask for one. -/
theorem tokens_enclosedIf {t : Tree} (h : t.pins = .free) (b inSequence : Bool) :
    (enclosedIf b t).tokens inSequence = t.tokens (b || inSequence) := by
  cases b with
  | false => rfl
  | true =>
    have hfree : (ofParts [t]).pins = .free := h
    have hgrouped : (ofParts [t]).isGrouped inSequence = false := isGrouped_sequence
    have hbody : (ofParts [t]).tokens inSequence =
        (ofParts [t]).enclosedTokens inSequence (tokensOfParts [t]) := by rw [ofParts, tokens]
    rw [enclosedIf, if_pos rfl, hbody, enclosedTokens_of_free hfree, bodyTokens, hgrouped]
    simp [tokensOfParts, occurs, mark, ofParts]

/-- A tree without anchors is written with the same tokens but for the anchors. Where an anchor
asked for a group, the sequence around the choice asks for it. -/
theorem tokens_unanchored (t : Tree) (inSequence : Bool) :
    t.unanchored.tokens inSequence = withoutAnchors (t.tokens inSequence) := by
  induction t generalizing inSequence with
  | leaf cls m =>
    rw [unanchored, tokens_enclosedIf rfl, tokens, tokens, enclosedTokens_of_free rfl,
      withoutAnchors_enclosedTokens]
    rfl
  | sequence parts m ih =>
    rw [unanchored, unanchoredAll_eq_map, tokens, tokens, enclosedTokens_of_free rfl,
      withoutAnchors_enclosedTokens, bodyTokens, bodyTokens, isGrouped_sequence_unanchored,
      tokensOfParts_map fun t ht => ih t ht true]
    rfl
  | choice members m ih =>
    have hgrouped : (choice (members.map unanchored) { occurs := m.occurs }).isGrouped
        ((choice members m).ownPins.isPinned || inSequence) =
          (choice members m).isGrouped inSequence := by
      have hown : (choice (members.map unanchored) { occurs := m.occurs }).ownPins = .free :=
        ownPins_of_free rfl
      have hpinned : Pins.free.isPinned = false := rfl
      rw [isGrouped, isGrouped, hown, hpinned]
      grind
    rw [unanchored, tokens_enclosedIf rfl, unanchoredAll_eq_map, tokens, tokens,
      enclosedTokens_of_free rfl, withoutAnchors_enclosedTokens, bodyTokens, bodyTokens, hgrouped,
      tokensOfMembers_map fun t ht => ih t ht false]
    rfl

/-- Without its anchors a regular tree is read from its tokens. -/
theorem readsMembers_unanchored {t : Tree} (h : t.Every IsRegular) :
    ReadsMembers False (withoutAnchors (t.tokens false)) [t.unanchored] := by
  have hfree := every_unanchored h
  have hregular : t.unanchored.Every IsRegular := hfree.imp fun u hu _ => hu.1
  have hshown : t.unanchored.Every IsShown := hfree.imp fun u hu hs =>
    isShown_of_free hu.2 fun c hc => (hs c hc).2
  rw [← tokens_unanchored]
  exact (reads_tokens False hregular.readable hshown nofun nofun).2 nofun

/-- Trees that are written with the same tokens describe the same strings. Both are read from the
same tokens, so the same tree is read. -/
theorem language_eq_of_tokens_eq {t u : Tree} (ht : t.Every IsRegular) (hu : u.Every IsRegular)
    (heq : t.tokens false = u.tokens false) : t.language M = u.language M := by
  obtain ⟨r, x, hrun, -, htree, -, hlanguage, -⟩ := (readsMembers_unanchored ht).exists_tree []
  obtain ⟨r', x', hrun', -, htree', -, hlanguage', -⟩ := (readsMembers_unanchored hu).exists_tree []
  rw [← heq, hrun, Prod.mk.injEq] at hrun'
  obtain ⟨rfl, -⟩ := hrun'
  obtain rfl : x = x' := Except.ok.inj (htree.symm.trans htree')
  rw [← language_unanchored t, ← hlanguage, hlanguage', language_unanchored]

end Tree

variable {options : Options} {pattern pattern' : String} {c d : Compiled}

/-- Generators that compare equal generate the same strings, if no class in them is a single
character beyond U+FFFF. -/
theorem language_eq_of_beq (hc : compile options pattern = .ok c)
    (hd : compile options pattern' = .ok d) (hshort : c.generator.root.Every Tree.HasShortClass)
    (hshort' : d.generator.root.Every Tree.HasShortClass)
    (heq : (c.generator == d.generator) = true) (M : Meaning) :
    c.generator.root.language M = d.generator.root.language M := by
  obtain ⟨hparse, hroot, -⟩ := of_compile hc
  obtain ⟨hparse', hroot', -⟩ := of_compile hd
  have hregular := regular_of_completed hparse hroot
  have hregular' := regular_of_completed hparse' hroot'
  have hchars : c.generator.root.chars false = d.generator.root.chars false :=
    String.ofList_inj.mp (Generator.beq_iff_text_eq.mp heq)
  exact Tree.language_eq_of_tokens_eq hregular hregular'
    (Tree.tokens_eq_of_chars_eq hregular hregular' hshort hshort' hchars)

/-- A character in hexadecimal digits, another quantifier and other groups. -/
theorem language_eq_of_beq_groups : ∃ c d, compile {} "^\\x61(?:b|c)d{0,}$" = .ok c ∧
    compile {} "^a(?:b|(?:c))d*$" = .ok d ∧ (c.generator == d.generator) = true ∧
    ∀ M, c.generator.root.language M = d.generator.root.language M := by
  obtain ⟨c, hc, htest⟩ := exists_of_compile
    (show ((compile {} "^\\x61(?:b|c)d{0,}$").toOption.any fun c =>
      decide (c.generator.root.Every Tree.HasShortClass ∧
        c.generator.text = "^a(?:b|c)d*$")) = true by decide +kernel)
  obtain ⟨d, hd, htest'⟩ := exists_of_compile
    (show ((compile {} "^a(?:b|(?:c))d*$").toOption.any fun d =>
      decide (d.generator.root.Every Tree.HasShortClass ∧
        d.generator.text = "^a(?:b|c)d*$")) = true by decide +kernel)
  obtain ⟨hshort, htext⟩ := of_decide_eq_true htest
  obtain ⟨hshort', htext'⟩ := of_decide_eq_true htest'
  have heq := Generator.beq_iff_text_eq.mpr (htext.trans htext'.symm)
  exact ⟨c, d, hc, hd, heq, language_eq_of_beq hc hd hshort hshort' heq⟩

/-- A character beyond U+FFFF is written like another one with a digit behind it. The second
generator has a string that is too short for the first one. -/
theorem exists_beq_language_ne : ∃ c d, compile {} "^\\u1F600$" = .ok c ∧
    compile {} "^😀$" = .ok d ∧ (c.generator == d.generator) = true ∧
    c.generator.root.language (.drawn ({} : Options).alphabet) ≠
      d.generator.root.language (.drawn ({} : Options).alphabet) := by
  obtain ⟨c, hc, htest⟩ := exists_of_compile
    (show ((compile {} "^\\u1F600$").toOption.any fun c =>
      decide (c.generator.root.length.least = 2 ∧ c.generator.text = "^\\u1F600$")) = true by
      decide +kernel)
  obtain ⟨d, hd, htest'⟩ := exists_of_compile
    (show ((compile {} "^😀$").toOption.any fun d =>
      decide (d.generator.root.Every (Tree.HasChars (.drawn ({} : Options).alphabet)) ∧
        d.generator.root.length.least = 1 ∧ d.generator.text = "^\\u1F600$")) = true by
      decide +kernel)
  obtain ⟨hleast, htext⟩ := of_decide_eq_true htest
  obtain ⟨hchars, hleast', htext'⟩ := of_decide_eq_true htest'
  refine ⟨c, d, hc, hd, Generator.beq_iff_text_eq.mpr (htext.trans htext'.symm), fun heq => ?_⟩
  have hmembers := (Generator.Arises.compiled hd).hasMembers
  obtain ⟨w, hw, hlength⟩ := (Tree.attains_length hchars hmembers).1
  have hadmits := (c.generator.root.length_admits (heq ▸ hw)).1
  rw [hleast] at hadmits
  rw [hleast', unbounded] at hlength
  omega

end Exemplar
