import Exemplar.Proofs.Padding.Regular
import Exemplar.Proofs.Sources
import Exemplar.Proofs.Text.Classes

/-!
# The tokens that a tree is written with

The pattern of a tree is a list of tokens. It is read as these tokens again, if all its classes are
legible and no null character stands in front of a digit.

## Main definitions

* `Tree.tokens`: the tokens of a tree
* `Token.Arises`: a token that trees are written with
* `Token.Apart`: a token that may stand in front of another one
* `Tree.IsReadable`: what is asked of each node of a tree that is read back

## Main results

* `Tree.chars_eq_flatMap`: the pattern of a tree, token by token
* `Tree.arises_of_mem_tokens`: the tokens of a readable tree
* `tokens_chars`: the pattern of a tree is read as the tokens of the tree
-/

namespace Exemplar

open Pattern

namespace Pattern.Token

/-- The start anchor. -/
def caret : Token := ⟨.caret, ['^']⟩

/-- The end anchor. -/
def dollar : Token := ⟨.dollar, ['$']⟩

/-- A bar. -/
def bar : Token := ⟨.bar, ['|']⟩

/-- The opening of a group. -/
def opening : Token := ⟨.group, ['(', '?', ':']⟩

/-- The end of a group. -/
def closing : Token := ⟨.close, [')']⟩

/-- A class. -/
def ofClass (cls : CharClass) : Token := ⟨.atom cls, cls.chars⟩

/-- A quantifier. -/
def ofExtent (e : Extent) : Token := ⟨e.lexeme, e.quantifier⟩

/-- A token that trees are written with, whose class satisfies the condition if it is one. -/
inductive Arises (P : CharClass → Prop) : Token → Prop where
  | caret : Arises P .caret
  | dollar : Arises P .dollar
  | bar : Arises P .bar
  | opening : Arises P .opening
  | closing : Arises P .closing
  | ofClass {cls : CharClass} : P cls → cls ≠ .anyOf ∅ → Arises P (.ofClass cls)
  | ofExtent {e : Extent} : e.least < unbounded → Arises P (.ofExtent e)

/-- A null character does not stand in front of a digit. -/
def Apart (t u : Token) : Prop :=
  t.text = ['\\', '0'] → ∀ d ∈ u.text.head?, d.isDigit = false

instance (t u : Token) : Decidable (t.Apart u) :=
  decidable_of_iff (t.text = ['\\', '0'] → u.text.head?.all (!·.isDigit) = true)
    (imp_congr_right fun _ => by simp [Option.all_eq_true])

/-- The text of the token is read as the token, whatever comes behind it. -/
def ReadsBack (space : CharSet) (t : Token) : Prop :=
  ∃ first more, t.text = first :: more ∧ ∀ rest,
    (t.text = ['\\', '0'] → ∀ d ∈ rest.head?, d.isDigit = false) →
      Lexeme.read space first (more ++ rest) = (t.lexeme, more.length)

end Pattern.Token

/-- Tokens that are read back one by one are read back one after the other. -/
theorem Pattern.tokens_flatMap {space : CharSet} {ts : List Token}
    (h : ∀ t ∈ ts, t.ReadsBack space) (hapart : ts.IsChain Token.Apart) :
    tokens space (ts.flatMap Token.text) = ts := by
  induction ts with
  | nil => simp [tokens]
  | cons t ts ih =>
    rw [List.forall_mem_cons] at h
    obtain ⟨⟨first, more, htext, hread⟩, hts⟩ := h
    have hrest : t.text = ['\\', '0'] → ∀ d ∈ (ts.flatMap Token.text).head?, d.isDigit = false := by
      cases ts with
      | nil => simp
      | cons u ts =>
        obtain ⟨first', more', htext', -⟩ := hts u List.mem_cons_self
        have := (List.isChain_cons_cons.mp hapart).1
        unfold Token.Apart at this
        simpa [htext'] using this
    rw [List.flatMap_cons, htext, List.cons_append, tokens, hread _ hrest]
    dsimp only
    rw [List.take_left, List.drop_left, ih hts hapart.tail, ← htext]

namespace Tree

/-- The tokens of a node without its anchors, given those of a single occurrence without group. -/
def bodyTokens (inSequence : Bool) (t : Tree) (inner : List Token) : List Token :=
  (if t.isGrouped inSequence then .opening :: inner ++ [.closing] else inner)
    ++ (if t.occurs = .once then [] else [.ofExtent t.occurs])

/-- The tokens of a node, given those of a single occurrence without group. -/
def enclosedTokens (inSequence : Bool) (t : Tree) (inner : List Token) : List Token :=
  (if t.ownPins.front.inSome then [.caret] else [])
    ++ (bodyTokens inSequence t inner ++ (if t.ownPins.back.inSome then [.dollar] else []))

mutual

/-- The tokens that the tree is written with; a choice in a sequence is grouped. -/
def tokens (inSequence : Bool) : Tree → List Token
  | leaf cls m => enclosedTokens inSequence (leaf cls m) [.ofClass cls]
  | sequence parts m => enclosedTokens inSequence (sequence parts m) (tokensOfParts parts)
  | choice members m => enclosedTokens inSequence (choice members m) (tokensOfMembers members)

/-- The tokens of the parts, one after the other. -/
def tokensOfParts : List Tree → List Token
  | [] => []
  | t :: ts => tokens true t ++ tokensOfParts ts

/-- The tokens of the members, with bars between them. -/
def tokensOfMembers : List Tree → List Token
  | [] => []
  | [t] => tokens false t
  | t :: u :: ts => tokens false t ++ .bar :: tokensOfMembers (u :: ts)

end

variable {t : Tree} {space : CharSet}

/-! ### The text of the tokens -/

theorem enclose_eq_flatMap (inSequence : Bool) (t : Tree) (inner : List Token) :
    t.enclose inSequence (inner.flatMap Token.text) =
      (t.enclosedTokens inSequence inner).flatMap Token.text := by
  unfold enclose enclosedTokens bodyTokens
  split <;> split <;> split <;> split <;>
    simp [Token.caret, Token.dollar, Token.opening, Token.closing, Token.ofExtent]

theorem charsOfParts_eq_tokens {parts : List Tree}
    (h : ∀ t ∈ parts, t.chars true = (t.tokens true).flatMap Token.text) :
    charsOfParts parts = (tokensOfParts parts).flatMap Token.text := by
  induction parts with
  | nil => rfl
  | cons t ts ih =>
    rw [List.forall_mem_cons] at h
    rw [charsOfParts, tokensOfParts, h.1, ih h.2, List.flatMap_append]

/-- The text of some members is that of their tokens, if it is so for each of them. -/
theorem charsOfMembers_eq_tokens {members : List Tree}
    (h : ∀ t ∈ members, t.chars false = (t.tokens false).flatMap Token.text) :
    charsOfMembers members = (tokensOfMembers members).flatMap Token.text := by
  induction members with
  | nil => rfl
  | cons t ts ih =>
    rw [List.forall_mem_cons] at h
    cases ts with
    | nil => exact h.1
    | cons u ts =>
      rw [charsOfMembers, tokensOfMembers, h.1, ih h.2, List.flatMap_append, List.flatMap_cons]
      rfl

/-- The pattern of a tree, token by token. -/
theorem chars_eq_flatMap (inSequence : Bool) (t : Tree) :
    t.chars inSequence = (t.tokens inSequence).flatMap Token.text := by
  induction t generalizing inSequence with
  | leaf cls m =>
    rw [chars, tokens, ← enclose_eq_flatMap]
    simp [Token.ofClass]
  | sequence parts m ih =>
    rw [chars, tokens, ← enclose_eq_flatMap, charsOfParts_eq_tokens fun t ht => ih t ht true]
  | choice members m ih =>
    rw [chars, tokens, ← enclose_eq_flatMap, charsOfMembers_eq_tokens fun t ht => ih t ht false]

/-! ### Reading the tokens back -/

/-- What is written of the class of a leaf is read back as the class. -/
def HasLegibleClass : Tree → Prop
  | leaf cls _ => cls.IsLegible
  | _ => True

instance : DecidablePred HasLegibleClass
  | leaf cls _ => inferInstanceAs (Decidable cls.IsLegible)
  | sequence _ _ | choice _ _ => .isTrue trivial

theorem readsBack_sign {first : Char} {more : List Char} {l : Lexeme}
    (h : ∀ rest, Lexeme.read space first (more ++ rest) = (l, more.length)) :
    Token.ReadsBack space ⟨l, first :: more⟩ :=
  ⟨first, more, rfl, fun rest _ => h rest⟩

/-- A token with a legible class is read back. -/
theorem readsBack_of_arises {token : Token} (h : token.Arises CharClass.IsLegible) :
    token.ReadsBack space := by
  cases h with
  | caret | dollar | bar | opening | closing => exact readsBack_sign fun _ => rfl
  | ofClass hlegible hne => exact CharClass.read_chars hlegible hne space
  | ofExtent hleast =>
    obtain ⟨first, more, htext, hread⟩ := Extent.read_quantifier hleast space
    exact ⟨first, more, htext, fun rest _ => hread rest⟩

/-! ### The tokens of readable trees -/

/-- The class of a leaf has characters, the parts of a sequence are placed, and a choice has
members. -/
def IsFilled : Tree → Prop
  | leaf cls _ => cls ≠ .anyOf ∅
  | sequence parts _ => IsPlaced parts
  | choice members _ => members ≠ []

/-- A node that may be read from what it is written as. -/
structure IsReadable (t : Tree) : Prop where
  filled : t.IsFilled
  least_lt : t.occurs.least < unbounded

theorem IsRegular.isReadable (h : t.IsRegular) : t.IsReadable where
  filled := by
    have hshape := h.shape
    cases t with
    | leaf => exact hshape
    | sequence => exact hshape
    | choice members m =>
      exact List.ne_nil_of_length_pos (Nat.lt_of_lt_of_le Nat.zero_lt_two hshape)
  least_lt := h.least_lt

theorem Every.readable (h : t.Every IsRegular) : t.Every IsReadable :=
  h.imp fun _ hu _ => hu.isReadable

section Arises

variable {P : CharClass → Prop} {Q : Tree → Prop}

/-- The tokens around a node arise if the ones inside do. -/
theorem arises_enclosed {inSequence : Bool} {inner : List Token} (h : t.IsReadable)
    (hinner : ∀ token ∈ inner, token.Arises P) :
    ∀ token ∈ t.enclosedTokens inSequence inner, token.Arises P := by
  have hgroup : ∀ token ∈ .opening :: inner ++ [.closing], token.Arises P := by
    simpa [or_imp, forall_and] using ⟨.opening, hinner, .closing⟩
  intro token htoken
  unfold enclosedTokens bodyTokens at htoken
  rw [List.mem_append, List.mem_append, List.mem_append] at htoken
  rcases htoken with htoken | (htoken | htoken) | htoken <;> split at htoken
  all_goals first
    | exact hgroup token htoken
    | exact hinner token htoken
    | simp only [List.mem_singleton, List.not_mem_nil] at htoken
  · exact htoken ▸ .caret
  · exact htoken ▸ .ofExtent h.least_lt
  · exact htoken ▸ .dollar

/-- The tokens of a sequence arise in its parts. -/
theorem arises_parts {parts : List Tree}
    (h : ∀ t ∈ parts, ∀ token ∈ t.tokens true, token.Arises P) :
    ∀ token ∈ tokensOfParts parts, token.Arises P := by
  induction parts with
  | nil => simp [tokensOfParts]
  | cons t ts ih =>
    rw [List.forall_mem_cons] at h
    rw [tokensOfParts]
    exact List.forall_mem_append.mpr ⟨h.1, ih h.2⟩

/-- The tokens of a choice arise in its members, or are bars. -/
theorem arises_members {members : List Tree}
    (h : ∀ t ∈ members, ∀ token ∈ t.tokens false, token.Arises P) :
    ∀ token ∈ tokensOfMembers members, token.Arises P := by
  induction members with
  | nil => simp [tokensOfMembers]
  | cons t ts ih =>
    rw [List.forall_mem_cons] at h
    cases ts with
    | nil => simpa [tokensOfMembers] using h.1
    | cons u ts =>
      rw [tokensOfMembers]
      exact List.forall_mem_append.mpr ⟨h.1, List.forall_mem_cons.mpr ⟨.bar, ih h.2⟩⟩

/-- The tokens of a readable tree, given what holds of the classes of its leaves. -/
theorem arises_of_mem_tokens (hclass : ∀ {cls m}, Q (leaf cls m) → P cls)
    (h : t.Every IsReadable) (hQ : t.Every Q) (inSequence : Bool) :
    ∀ token ∈ t.tokens inSequence, token.Arises P := by
  induction t generalizing inSequence with
  | leaf cls m =>
    obtain ⟨ht, -⟩ := every_iff.mp h
    rw [tokens]
    refine arises_enclosed ht fun token htoken => ?_
    rw [List.mem_singleton.mp htoken]
    exact .ofClass (hclass (every_iff.mp hQ).1) ht.filled
  | sequence parts m ih =>
    obtain ⟨ht, hs⟩ := every_iff.mp h
    rw [tokens]
    exact arises_enclosed ht
      (arises_parts fun t ht => ih t ht (hs t ht) ((every_iff.mp hQ).2 t ht) true)
  | choice members m ih =>
    obtain ⟨ht, hs⟩ := every_iff.mp h
    rw [tokens]
    exact arises_enclosed ht
      (arises_members fun t ht => ih t ht (hs t ht) ((every_iff.mp hQ).2 t ht) false)

end Arises

/-- The pattern of a tree is read as the tokens that the tree is written with. -/
theorem tokens_chars (h : t.Every IsReadable) (hl : t.Every HasLegibleClass)
    (hapart : (t.tokens false).IsChain Token.Apart) (space : CharSet) :
    Pattern.tokens space (t.chars false) = t.tokens false := by
  rw [chars_eq_flatMap]
  exact tokens_flatMap
    (fun token htoken => readsBack_of_arises (arises_of_mem_tokens id h hl false token htoken))
    hapart

end Tree

end Exemplar
