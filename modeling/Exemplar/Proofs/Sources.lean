import Exemplar.Generator
import Exemplar.Proofs.Padding.Separation

/-!
# Trees without their sources

The texts that the nodes of a tree were read from are told in messages. Nothing else depends on
them: a tree without sources describes the same strings, it has the same lengths, the same pattern
and the same complement, and it is put together in the same way.

## Main definitions

* `Tree.unsourced`: the tree without the texts that it was read from

## Main results

* `Tree.unsourced_pinned`, `Tree.unsourced_ofParts`, …: trees that are put together
* `Tree.language_unsourced`, `Tree.length_unsourced`, `Tree.chars_unsourced`,
  `Tree.complement?_unsourced`: what does not depend on sources
-/

namespace Exemplar

namespace Tree

mutual

/-- The tree without the texts that its nodes were read from. -/
def unsourced : Tree → Tree
  | leaf cls m => leaf cls { m with source := none }
  | sequence parts m => sequence (unsourcedAll parts) { m with source := none }
  | choice members m => choice (unsourcedAll members) { m with source := none }

/-- Each tree without sources. -/
def unsourcedAll : List Tree → List Tree
  | [] => []
  | t :: ts => unsourced t :: unsourcedAll ts

end

theorem unsourcedAll_eq_map (ts : List Tree) : unsourcedAll ts = ts.map unsourced := by
  induction ts with
  | nil => rfl
  | cons t ts ih => rw [unsourcedAll, ih, List.map_cons]

@[simp] theorem unsourced_leaf (cls : CharClass) (m : Mark) :
    (leaf cls m).unsourced = leaf cls { m with source := none } := by
  rw [unsourced]

@[simp] theorem unsourced_sequence (parts : List Tree) (m : Mark) :
    (sequence parts m).unsourced = sequence (parts.map unsourced) { m with source := none } := by
  rw [unsourced, unsourcedAll_eq_map]

@[simp] theorem unsourced_choice (members : List Tree) (m : Mark) :
    (choice members m).unsourced = choice (members.map unsourced) { m with source := none } := by
  rw [unsourced, unsourcedAll_eq_map]

variable (t : Tree)

/-! ## Marks -/

theorem mark_unsourced : t.unsourced.mark = { t.mark with source := none } := by
  cases t <;> simp [mark]

@[simp] theorem pins_unsourced : t.unsourced.pins = t.pins := by
  rw [pins, mark_unsourced, pins]

@[simp] theorem occurs_unsourced : t.unsourced.occurs = t.occurs := by
  rw [occurs, mark_unsourced, occurs]

@[simp] theorem unsourced_withMark (m : Mark) :
    (t.withMark m).unsourced = t.unsourced.withMark { m with source := none } := by
  cases t <;> simp [withMark]

/-- The texts of the parts make no difference to their pins. -/
theorem pinsOfParts_map_unsourced (parts : List Tree) :
    pinsOfParts (parts.map unsourced) = pinsOfParts parts := by
  have hpins : ∀ s : Side, (fun t : Tree => t.unsourced.pins.on s) = fun t => t.pins.on s := by
    intro s
    funext t
    rw [pins_unsourced]
  have hon : ∀ s : Side, (pinsOfParts (parts.map unsourced)).on s = (pinsOfParts parts).on s := by
    intro s
    rw [pinsOfParts_on, pinsOfParts_on, Side.outermost_map]
    cases s.outermost parts with
    | none => rfl
    | some t => exact congrFun (hpins s) t
  exact congrArg₂ Pins.mk (hon .front) (hon .back)

theorem pinsOfMembers_map_unsourced (members : List Tree) :
    pinsOfMembers (members.map unsourced) = pinsOfMembers members := by
  simp [pinsOfMembers, Function.comp_def]

@[simp] theorem derivedPins_unsourced : t.unsourced.derivedPins = t.derivedPins := by
  cases t with
  | leaf => rw [unsourced_leaf]; rfl
  | sequence parts m => rw [unsourced_sequence]; exact pinsOfParts_map_unsourced parts
  | choice members m => rw [unsourced_choice]; exact pinsOfMembers_map_unsourced members

@[simp] theorem ownPins_unsourced : t.unsourced.ownPins = t.ownPins := by
  rw [ownPins, pins_unsourced, derivedPins_unsourced, ownPins]

/-! ## Building -/

@[simp] theorem unsourced_ofParts (parts : List Tree) :
    (ofParts parts).unsourced = ofParts (parts.map unsourced) := by
  rw [ofParts, unsourced_sequence, ofParts, pinsOfParts_map_unsourced]

@[simp] theorem unsourced_ofMembers (members : List Tree) :
    (ofMembers members).unsourced = ofMembers (members.map unsourced) := by
  rw [ofMembers, unsourced_choice, ofMembers, pinsOfMembers_map_unsourced]

@[simp] theorem unsourced_pinned (p : Pins) : (t.pinned p).unsourced = t.unsourced.pinned p := by
  rw [pinned, unsourced_withMark, pinned, mark_unsourced, pins_unsourced]

@[simp] theorem unsourced_withOccurs (e : Extent) :
    (t.withOccurs e).unsourced = t.unsourced.withOccurs e := by
  rw [withOccurs, unsourced_withMark, withOccurs, mark_unsourced, pins_unsourced]

@[simp] theorem unsourced_withSource (source : String) :
    (t.withSource source).unsourced = t.unsourced := by
  rw [withSource, unsourced_withMark]
  cases t <;> simp [withMark, mark]

@[simp] theorem unsourced_repeated (e : Extent) :
    (Pattern.repeated t e).unsourced = Pattern.repeated t.unsourced e := by
  unfold Pattern.repeated
  rw [occurs_unsourced, pins_unsourced, unsourced_withOccurs]
  congr 1
  split <;> simp

/-! ## Strings -/

/-- A tree without sources describes the same strings. -/
@[simp] theorem language_unsourced (M : Meaning) : t.unsourced.language M = t.language M := by
  induction t with
  | leaf cls m =>
    ext w
    rw [unsourced_leaf, mem_language_leaf, mem_language_leaf]
  | sequence parts m ih => rw [unsourced_sequence, language, language, languageOfParts_map ih]
  | choice members m ih => rw [unsourced_choice, language, language, languageOfMembers_map ih]

/-! ## Lengths and texts -/

@[simp] theorem length_unsourced : t.unsourced.length = t.length := by
  induction t with
  | leaf cls m => rw [unsourced_leaf, length, length]
  | sequence parts m ih =>
    rw [unsourced_sequence, length, length, lengths_eq_map, lengths_eq_map, List.map_map]
    exact congrArg (m.occurs.mul <| .sumAll ·) (List.map_congr_left ih)
  | choice members m ih =>
    rw [unsourced_choice, length, length, lengths_eq_map, lengths_eq_map, List.map_map]
    exact congrArg (m.occurs.mul <| .hullAll ·) (List.map_congr_left ih)

@[simp] theorem isPlainLeaf_unsourced : t.unsourced.isPlainLeaf = t.isPlainLeaf := by
  cases t with
  | leaf cls m => rw [unsourced_leaf]; rfl
  | _ => simp [isPlainLeaf]

/-- The text of a tree makes no difference to whether it is written in a group. -/
theorem isGrouped_unsourced (inSequence : Bool) :
    t.unsourced.isGrouped inSequence = t.isGrouped inSequence := by
  have hown := ownPins_unsourced t
  cases t with
  | leaf => rw [unsourced_leaf]; rfl
  | sequence parts m =>
    rw [unsourced_sequence]
    rcases parts with _ | ⟨part, _ | ⟨part', parts⟩⟩ <;> simp [isGrouped]
  | choice members m =>
    rw [unsourced_choice] at hown ⊢
    rw [isGrouped, isGrouped, hown]

theorem enclose_unsourced (inSequence : Bool) (inner : List Char) :
    t.unsourced.enclose inSequence inner = t.enclose inSequence inner := by
  rw [enclose, enclose, isGrouped_unsourced, ownPins_unsourced, occurs_unsourced]

theorem charsOfParts_eq_flatMap (parts : List Tree) :
    charsOfParts parts = parts.flatMap (chars true) := by
  induction parts with
  | nil => rfl
  | cons t ts ih => rw [charsOfParts, ih, List.flatMap_cons]

/-- Members that are written alike one by one are written alike together. -/
theorem charsOfMembers_congr {members members' : List Tree}
    (h : List.Forall₂ (fun t t' => t.chars false = t'.chars false) members members') :
    charsOfMembers members = charsOfMembers members' := by
  induction h with
  | nil => rfl
  | cons ht hts ih =>
    cases hts with
    | nil => exact ht
    | cons => rw [charsOfMembers, ht, ih, charsOfMembers]

/-- Sources are not written. -/
@[simp] theorem chars_unsourced (inSequence : Bool) :
    t.unsourced.chars inSequence = t.chars inSequence := by
  induction t generalizing inSequence with
  | leaf cls m =>
    have := enclose_unsourced (leaf cls m) inSequence cls.chars
    rwa [unsourced_leaf] at this ⊢
  | sequence parts m ih =>
    have := enclose_unsourced (sequence parts m) inSequence (charsOfParts parts)
    rw [unsourced_sequence] at this ⊢
    rw [chars, chars, ← this, charsOfParts_eq_flatMap, charsOfParts_eq_flatMap,
      List.flatMap_map]
    exact congrArg _ (List.flatMap_congr fun t ht => ih t ht true)
  | choice members m ih =>
    have := enclose_unsourced (choice members m) inSequence (charsOfMembers members)
    rw [unsourced_choice] at this ⊢
    rw [chars, chars, ← this]
    refine congrArg _ (charsOfMembers_congr ?_)
    rw [List.forall₂_map_left_iff]
    exact List.forall₂_same.mpr fun t ht => ih t ht false

@[simp] theorem text_unsourced : t.unsourced.text = t.text := by
  rw [text, chars_unsourced, text]

/-! ## Complements -/

theorem allNullable_map (parts : List Tree)
    (h : ∀ t ∈ parts, t.unsourced.isNullable = t.isNullable) :
    allNullable (parts.map unsourced) = allNullable parts := by
  induction parts with
  | nil => rfl
  | cons t ts ih =>
    rw [List.forall_mem_cons] at h
    rw [List.map_cons, allNullable, allNullable, h.1, ih h.2]

theorem anyNullable_map (members : List Tree)
    (h : ∀ t ∈ members, t.unsourced.isNullable = t.isNullable) :
    anyNullable (members.map unsourced) = anyNullable members := by
  induction members with
  | nil => rfl
  | cons t ts ih =>
    rw [List.forall_mem_cons] at h
    rw [List.map_cons, anyNullable, anyNullable, h.1, ih h.2]

@[simp] theorem isNullable_unsourced : t.unsourced.isNullable = t.isNullable := by
  induction t with
  | leaf cls m => rw [unsourced_leaf, isNullable, isNullable]
  | sequence parts m ih =>
    rw [unsourced_sequence, isNullable, isNullable, allNullable_map parts ih]
  | choice members m ih =>
    rw [unsourced_choice, isNullable, isNullable, anyNullable_map members ih]

theorem leadingOfParts_map (parts : List Tree) (h : ∀ t ∈ parts, t.unsourced.leading = t.leading) :
    leadingOfParts (parts.map unsourced) = leadingOfParts parts := by
  induction parts with
  | nil => rfl
  | cons t ts ih =>
    rw [List.forall_mem_cons] at h
    rw [List.map_cons, leadingOfParts, leadingOfParts, h.1, isNullable_unsourced, ih h.2]

theorem leadingOfMembers_map (members : List Tree)
    (h : ∀ t ∈ members, t.unsourced.leading = t.leading) :
    leadingOfMembers (members.map unsourced) = leadingOfMembers members := by
  induction members with
  | nil => rfl
  | cons t ts ih =>
    rw [List.forall_mem_cons] at h
    rw [List.map_cons, leadingOfMembers, leadingOfMembers, h.1, ih h.2]

@[simp] theorem leading_unsourced : t.unsourced.leading = t.leading := by
  induction t with
  | leaf cls m => rw [unsourced_leaf, leading, leading]
  | sequence parts m ih => rw [unsourced_sequence, leading, leading, leadingOfParts_map parts ih]
  | choice members m ih =>
    rw [unsourced_choice, leading, leading, leadingOfMembers_map members ih]

/-- A complement depends on lengths and on leading classes only. -/
@[simp] theorem complement?_unsourced (alphabet : Alphabet) (anchored : Bool) :
    t.unsourced.complement? alphabet anchored = t.complement? alphabet anchored := by
  simp [complement?, derivations, wrongBeginning?, tooShort, mismatches, required, dispensable]

end Tree

end Exemplar
