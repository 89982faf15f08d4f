import Exemplar.Proofs.Padding.Completion
import Exemplar.Proofs.Text.Rereading

/-!
# Reading a generator back

The text of a generator is a pattern, and where the generator is legible this pattern is compiled
into a generator of the same strings. If no group in the text could be left out, it has the same
text, too.

A tree is legible when its characters are read back as they are, and its pins can be told from what
is written. Neither holds of all trees: a null character is written like the beginning of an octal
escape, and a start anchor behind another one is not written at all.

## Main definitions

* `Tree.IsLegible`: the tree may be read back from its text

## Main results

* `Pattern.reads_tokens`: the tokens of a tree are read as the tree
* `compile_text`: a legible generator is compiled from its own text
-/

namespace Exemplar

open Exemplar.Tree

namespace Pattern

variable {spare : Prop} {t x : Tree} {ts : List Token} {inSequence : Bool}

/-! ## Choices without a group -/

/-- A choice that is pinned like its members and occurs once is not grouped. -/
theorem isBareChoice_of_pins {members : List Tree} {m : Mark} (honce : m.occurs = .once)
    (hpins : m.pins = pinsOfMembers members) : (choice members m).isBareChoice = true := by
  have hown : (choice members m).ownPins = .free := by
    simp [ownPins, pins, mark, derivedPins, hpins, Pins.diff, Pin.diff, Pins.free, Pin.free]
  simp [isBareChoice, isGrouped, honce, hown, Pins.isPinned, Pins.free, Pin.free]

/-- A choice without a group has neither a quantifier nor anchors. -/
theorem of_isBareChoice {members : List Tree} {m : Mark}
    (hbare : (choice members m).isBareChoice = true) :
    (choice members m).isGrouped false = false ∧ m.occurs = .once ∧
      (choice members m).ownPins.front.inSome = false ∧
      (choice members m).ownPins.back.inSome = false := by
  have hgrouped : (choice members m).isGrouped false = false := by simpa [isBareChoice] using hbare
  simp only [isBareChoice, isGrouped, Pins.isPinned, Bool.not_eq_true', Bool.or_eq_false_iff,
    decide_eq_false_iff_not, not_not, Bool.false_or] at hbare
  obtain ⟨honce, ⟨⟨hfront, -⟩, hback⟩, -⟩ := hbare
  exact ⟨hgrouped, honce, hfront, hback⟩

theorem tokens_of_isBareChoice {members : List Tree} {m : Mark}
    (hbare : (choice members m).isBareChoice = true) :
    (choice members m).tokens false = tokensOfMembers members := by
  obtain ⟨hgrouped, honce, hfront, hback⟩ := of_isBareChoice hbare
  simp [Tree.tokens, enclosedTokens, bodyTokens, hgrouped, hfront, hback, occurs, mark, honce]

theorem chars_of_isBareChoice {members : List Tree} {m : Mark}
    (hbare : (choice members m).isBareChoice = true) :
    (choice members m).chars false = charsOfMembers members := by
  obtain ⟨hgrouped, honce, hfront, hback⟩ := of_isBareChoice hbare
  simp [chars, enclose, hgrouped, hfront, hback, occurs, mark, honce]

theorem pieces_of_isBareChoice {members : List Tree} {m : Mark}
    (hbare : (choice members m).isBareChoice = true) :
    (choice members m).pieces = [.group (charsOfMembers members)] := by
  obtain ⟨-, honce, hfront, hback⟩ := of_isBareChoice hbare
  simp [pieces, enclosedPieces, quantifierPieces, hfront, hback, occurs, mark, honce]

theorem signs_of_isBareChoice (hbare : t.isBareChoice = true) : signs t.pieces = [.group] := by
  cases t with
  | leaf => cases hbare
  | sequence => cases hbare
  | choice members m =>
    rw [pieces_of_isBareChoice hbare]
    rfl

/-! ## Nodes -/

/-- The parts of a sequence, one after the other. -/
theorem readsAs_tokensOfParts {parts : List Tree}
    (h : ∀ t ∈ parts, ReadsAs spare (t.tokens true) [t]) :
    ReadsAs spare (tokensOfParts parts) parts := by
  induction parts with
  | nil => exact readsAs_nil
  | cons t ts ih =>
    rw [List.forall_mem_cons] at h
    exact h.1.append (ih h.2)

/-- The members of a choice, with bars between them. -/
theorem readsMembers_tokensOfMembers {members : List Tree} (hne : members ≠ [])
    (h : ∀ t ∈ members, ReadsMembers spare (t.tokens false) [t]) :
    ReadsMembers spare (tokensOfMembers members) members := by
  induction members with
  | nil => exact absurd rfl hne
  | cons t ts ih =>
    rw [List.forall_mem_cons] at h
    cases ts with
    | nil => exact h.1
    | cons u ts => exact h.1.bar (ih (List.cons_ne_nil u ts) h.2)

/-- A node, given how it is read without its anchors. -/
theorem readsAs_enclosed {inner : List Tree} (h : t.Every IsShown)
    (hbody : ReadsAs spare (t.bodyTokens inSequence ts) inner) (hplaced : IsPlaced inner)
    (hlanguage : ∀ M, languageOfParts M inner = t.language M)
    (hpins : (pinsOfParts inner).plain = t.derivedPins.plain)
    (hpieces : spare → piecesOfParts inner = t.innerPieces ++ quantifierPieces t.occurs) :
    ReadsAs spare (t.enclosedTokens inSequence ts) [t] := by
  have hbefore : ReadsAs spare (if t.ownPins.front.inSome then [.caret] else [])
      t.anchorsBefore := by
    unfold anchorsBefore
    split
    · exact readsAs_caret
    · exact readsAs_nil
  have hbehind : ReadsAs spare (if t.ownPins.back.inSome then [.dollar] else [])
      t.anchorsBehind := by
    unfold anchorsBehind
    split
    · exact readsAs_dollar
    · exact readsAs_nil
  exact (hbefore.append (hbody.append hbehind)).resembles
    (resembles_anchored (every_iff.mp h).1 hlanguage hpins hpieces)
    (isPlaced_anchored h hplaced hpins)

/-- A node, given how a single occurrence is read. -/
theorem readsAs_of_isAtomOf {P : Tree → Prop} {atom : List Token} (h : t.Every IsShown)
    (hleast : t.occurs.least < unbounded) (hatom : ReadsAtom atom P)
    (hbody : t.bodyTokens inSequence ts =
      atom ++ if t.occurs = .once then [] else [.ofExtent t.occurs])
    (hP : ∀ x, BuiltPlain x → P x → IsAtomOf spare t x) :
    ReadsAs spare (t.enclosedTokens inSequence ts) [t] :=
  readsAs_enclosed h (hbody ▸ hatom.readsAs (every_iff.mp h).1 hleast hP)
    (isPlaced_singleton t.bare) (fun M => by rw [languageOfParts_singleton, language_bare])
    (by rw [pinsOfParts_singleton, bare, pins_withMark])
    (fun _ => by rw [piecesOfParts_singleton, pieces_bare])

theorem readsAs_leaf {cls : CharClass} {m : Mark} (h : (leaf cls m).Every IsShown)
    (hleast : m.occurs.least < unbounded) :
    ReadsAs spare ((leaf cls m).tokens inSequence) [leaf cls m] := by
  rw [Tree.tokens]
  refine readsAs_of_isAtomOf h hleast (readsAtom_class cls) rfl ?_
  rintro x - ⟨source, rfl⟩
  exact isAtomOf_class (fun _ => rfl) rfl (fun _ => rfl) source

/-- The group of a sequence that is repeated. -/
theorem isAtomOf_parts {parts : List Tree} {m : Mark} {terms : List (Nat × Tree)}
    (hgrouped : (sequence parts m).isGrouped true = true)
    (hspare : spare → (sequence parts m).IsSparing) (hx : Frame.Joined terms x)
    (h : Resembles spare (terms.map Prod.snd) parts) (source : String) :
    IsAtomOf spare (sequence parts m) (x.withSource source) where
  language M := by rw [language_withSource, hx.language, h.language]; rfl
  pins := by rw [withSource, pins_withMark]; exact (congrArg Pins.plain hx.pins).trans h.pins
  once _ honce := by
    have honce : m.occurs = .once := honce
    simp [isGrouped_sequence, honce] at hgrouped
  repeated hs hne := by
    have hpieces : (x.withSource source).pieces = piecesOfParts parts := by
      rw [pieces_withSource, hx.pieces, h.pieces hs]
    obtain ⟨hatom, hgroup⟩ := hspare hs hgrouped
    rw [pieces_repeated hne (hpieces ▸ hatom) (hpieces ▸ hgroup), chars_eq_pieces, hpieces,
      ← charsOfParts_eq_pieces, innerPieces, if_pos hgrouped]
    rfl

theorem tokens_leaf {cls : CharClass} {m : Mark} (honce : m.occurs = .once)
    (hown : (leaf cls m).ownPins = .free) : (leaf cls m).tokens inSequence = [.ofClass cls] := by
  rw [Tree.tokens, enclosedTokens, bodyTokens, hown, occurs, mark, honce]
  rfl

/-- A single character that is repeated without a group. -/
theorem isAtomOf_part {cls : CharClass} {m m' : Mark} (honce : m'.occurs = .once)
    (hown : (leaf cls m').ownPins = .free)
    (hgrouped : (sequence [leaf cls m'] m).isGrouped true = false) (source : String) :
    IsAtomOf spare (sequence [leaf cls m'] m) ((ofClass cls).withSource source) := by
  refine isAtomOf_class (fun M => ?_) ?_ (fun _ => ?_) source
  · rw [languageOnce, languageOfParts_singleton, language_eq_repeated, occurs, mark, honce,
      Extent.repeated_once]
    rfl
  · have hpins : m'.pins = .free := by rwa [ownPins_leaf] at hown
    exact congrArg Pins.plain hpins
  · rw [innerPieces, hgrouped, if_neg Bool.false_ne_true, piecesOfParts_singleton,
      pieces_leaf honce hown]

/-- The tokens of a sequence are read as the sequence. Without a group, its parts stand in a row, or
there is a single leaf with a quantifier. -/
theorem readsAs_sequence {parts : List Tree} {m : Mark} (h : (sequence parts m).Every IsShown)
    (hreadable : (sequence parts m).IsReadable) (hspare : spare → (sequence parts m).IsSparing)
    (ih : ReadsAs spare (tokensOfParts parts) parts) :
    ReadsAs spare ((sequence parts m).tokens inSequence) [sequence parts m] := by
  have hplaced : IsPlaced parts := hreadable.filled
  have hsame : (sequence parts m).isGrouped inSequence = (sequence parts m).isGrouped true :=
    isGrouped_sequence.trans isGrouped_sequence.symm
  rw [Tree.tokens]
  cases hgrouped : (sequence parts m).isGrouped true with
  | true =>
    refine readsAs_of_isAtomOf h hreadable.least_lt (ih.readsInside hplaced).group ?_ ?_
    · rw [bodyTokens, hsame.trans hgrouped, if_pos rfl]
    · rintro x - ⟨t, source, ⟨terms, hjoined, hterms⟩, rfl⟩
      exact isAtomOf_parts hgrouped hspare hjoined hterms source
  | false =>
    have hungrouped : (sequence parts m).isGrouped inSequence = false := hsame.trans hgrouped
    have hinner : (sequence parts m).innerPieces = piecesOfParts parts :=
      if_neg (by rw [hgrouped]; exact Bool.false_ne_true)
    by_cases honce : m.occurs = .once
    · have hbody : (sequence parts m).bodyTokens inSequence (tokensOfParts parts) =
          tokensOfParts parts := by
        rw [bodyTokens, hungrouped, if_neg Bool.false_ne_true, occurs, mark, if_pos honce]
        exact List.append_nil _
      refine readsAs_enclosed h (hbody.symm ▸ ih) hplaced (fun M => ?_) rfl fun _ => ?_
      · rw [language_eq_repeated, occurs, mark, honce, Extent.repeated_once]
        rfl
      · rw [hinner, occurs, mark, quantifierPieces, if_pos honce, List.append_nil]
    · obtain ⟨cls, m', rfl, honce', hown⟩ := exists_leaf_of_isGrouped honce hgrouped
      refine readsAs_of_isAtomOf h hreadable.least_lt (readsAtom_class cls) ?_ ?_
      · rw [bodyTokens, hungrouped, if_neg Bool.false_ne_true, tokensOfParts, tokensOfParts,
          tokens_leaf honce' hown]
        rfl
      · rintro x - ⟨source, rfl⟩
        exact isAtomOf_part honce' hown hgrouped source

theorem pinsOfMembers_singleton (t : Tree) : pinsOfMembers [t] = t.pins := by
  simp [pinsOfMembers, Pin.ofBranches]

/-- The group of a choice that is read as a single tree. This cannot be where no group could be left
out, so how the tree is written needs no proof. -/
theorem isAtomOf_member {members : List Tree} {m : Mark} (h : ResemblesMembers spare [x] members)
    (hne : members ≠ []) (hlength : spare → 2 ≤ members.length) (source : String) :
    IsAtomOf spare (choice members m) (x.withSource source) where
  language M := by
    rw [language_withSource, ← languageOfMembers_singleton, h.language]
    rfl
  pins := by
    rw [withSource, pins_withMark]
    exact (congrArg Pins.plain (pinsOfMembers_singleton x)).symm.trans (h.pins hne)
  once hs _ := absurd ((hlength hs).trans h.length) (by simp)
  repeated hs _ := absurd ((hlength hs).trans h.length) (by simp)

/-- The group of a choice. -/
theorem isAtomOf_members {members ms : List Tree} {m m' : Mark}
    (h : ResemblesMembers spare ms members) (hne : members ≠ [])
    (hshown : (choice members m).IsShown) (honce : m'.occurs = .once)
    (hpins : m'.pins = pinsOfMembers ms) (hplain : IsPlain (choice ms m')) :
    IsAtomOf spare (choice members m) (choice ms m') := by
  have hderived : (choice ms m').pins.plain = (choice members m).derivedPins.plain := by
    rw [pins, mark, hpins]
    exact h.pins hne
  have hinner : ∀ m'', spare → (choice ms m'').innerPieces = (choice members m).innerPieces :=
    fun m'' hs => by rw [innerPieces, innerPieces, h.charsOfMembers_eq hne hs]
  refine ⟨fun M => ?_, hderived, fun hs _ => ?_, fun hs hne => ?_⟩
  · rw [language_eq_repeated, occurs, mark, honce, Extent.repeated_once]
    exact h.language M
  · rw [pieces_of_isBareChoice (isBareChoice_of_pins honce hpins)]
    exact hinner m' hs
  · have hfree : (choice ms m').pins = .free := (Pins.plain_of_byLook hplain).symm.trans
      (hderived.trans (hshown.repeated.resolve_left hne))
    have hrepeated : Pattern.repeated (choice ms m') (choice members m).occurs =
        (choice ms m').withOccurs (choice members m).occurs :=
      congrArg (withOccurs · _) (if_pos ⟨honce, hfree⟩)
    rw [hrepeated, pieces_withOccurs hfree, quantifierPieces, if_neg hne]
    exact congrArg (· ++ _) (hinner _ hs)

/-- The tokens of a choice are read as the choice. -/
theorem readsAs_choice {members : List Tree} {m : Mark} (h : (choice members m).Every IsShown)
    (hreadable : (choice members m).IsReadable) (hlength : spare → 2 ≤ members.length)
    (hgrouped : (choice members m).isGrouped inSequence)
    (ih : ReadsMembers spare (tokensOfMembers members) members) :
    ReadsAs spare ((choice members m).tokens inSequence) [choice members m] := by
  have hne : members ≠ [] := hreadable.filled
  rw [Tree.tokens]
  refine readsAs_of_isAtomOf h hreadable.least_lt ih.readsInside.group ?_ ?_
  · rw [bodyTokens, if_pos hgrouped]
  rintro x hx ⟨t, source, ⟨ms, hms, rfl | ⟨source', rfl⟩⟩, rfl⟩
  · exact isAtomOf_member hms hne hlength source
  · exact isAtomOf_members hms hne (every_iff.mp h).1 rfl rfl hx.2

/-! ## Members -/

theorem isGrouped_eq (hbare : t.isBareChoice = false) : t.isGrouped false = t.isGrouped true := by
  cases t with
  | leaf => rfl
  | sequence => rw [isGrouped_sequence, isGrouped_sequence]
  | choice => rw [show isGrouped false _ = true by simpa [isBareChoice] using hbare]; rfl

/-- Only a choice without a group is written in another way where it stands in a sequence. -/
theorem tokens_eq (hbare : t.isBareChoice = false) : t.tokens false = t.tokens true := by
  have hgrouped := isGrouped_eq hbare
  cases t <;> rw [Tree.tokens, Tree.tokens, enclosedTokens, enclosedTokens, bodyTokens, bodyTokens,
    hgrouped]

theorem chars_eq (hbare : t.isBareChoice = false) : t.chars false = t.chars true := by
  rw [chars_eq_flatMap, chars_eq_flatMap, tokens_eq hbare]

/-- A tree that is read as a part is read as a member. A choice in a group is a choice without one
when it stands alone. -/
theorem readsMembers_of_readsAs (h : ReadsAs spare (t.tokens true) [t])
    (hbare : t.isBareChoice = false) (hbracketed : spare → ¬t.IsBracketed) :
    ReadsMembers spare (t.tokens false) [t] := by
  rw [tokens_eq hbare]
  refine h.readsMembers fun terms last hjoined hterms => ?_
  have hpins : ∀ side, (last.pins.on side).plain = (t.pins.on side).plain := fun side => by
    rw [← Pins.on_plain, ← Pins.on_plain, hjoined.pins, hterms.pins, pinsOfParts_singleton]
  refine ⟨Nat.le_refl 1, fun M => ?_, fun side => ?_, fun side => ?_, fun hs => ?_⟩
  · rw [languageOfMembers_singleton, languageOfMembers_singleton, hjoined.language, hterms.language,
      languageOfParts_singleton]
  · exact congrArg (fun p => p.inSome || false) (hpins side)
  · exact congrArg (fun p => p.inAll && true) (hpins side)
  · have hpieces : last.pieces = t.pieces := by
      rw [hjoined.pieces, hterms.pieces hs, piecesOfParts_singleton]
    have hlast : last.isBareChoice = false := Bool.eq_false_of_not_eq_true fun hlast =>
      hbracketed hs ⟨hpieces ▸ signs_of_isBareChoice hlast, hbare⟩
    have hchars : last.chars false = t.chars false := by
      rw [chars_eq hlast, chars_eq hbare, chars_eq_pieces, chars_eq_pieces, hpieces]
    simp only [List.flatMap_singleton, barred, hchars]

/-- A choice without a group is read as its members. -/
theorem readsMembers_choice {members : List Tree} {m : Mark}
    (hshown : (choice members m).IsShown) (hne : members ≠ [])
    (hbare : (choice members m).isBareChoice = true)
    (ih : ReadsMembers spare (tokensOfMembers members) members) :
    ReadsMembers spare ((choice members m).tokens false) [choice members m] := by
  obtain ⟨-, honce, hfront, hback⟩ := of_isBareChoice hbare
  have hpins : ∀ side, ((choice members m).pins.on side).plain =
      (Pin.ofBranches (members.map (·.pins.on side))).plain := fun side => by
    have hnone : shownPins (choice members m).ownPins = .free := by
      simp [shownPins, hfront, hback, Pins.free]
    rw [← Pins.on_plain, hshown.pins, hnone, Pins.on_union, Pins.on_free, Pin.union_free,
      Pins.on_plain, derivedPins, pinsOfMembers_on]
  rw [tokens_of_isBareChoice hbare]
  refine ih.resembles ⟨List.length_pos_iff.mpr hne, fun M => ?_, fun side => ?_, fun side => ?_,
    fun _ => ?_⟩
  · rw [languageOfMembers_singleton, language_eq_repeated, occurs, mark, honce,
      Extent.repeated_once]
    rfl
  · have hsome := congrArg Pin.inSome (hpins side)
    simpa [Pin.plain, Pin.ofBranches, Function.comp_def] using hsome.symm
  · have hall := congrArg Pin.inAll (hpins side)
    simpa [Pin.plain, Pin.ofBranches, Function.comp_def, List.isEmpty_eq_false_iff.mpr hne] using
      hall.symm
  · rw [flatMap_barred hne, List.flatMap_singleton, barred, chars_of_isBareChoice hbare]

/-- The tokens of a tree are read as the tree. A member of a choice is read without a group if it is
a choice that stands bare itself. -/
theorem reads_tokens (spare : Prop) (h : t.Every IsReadable) (hshown : t.Every IsShown)
    (hregular : spare → t.Every IsRegular) (hspare : spare → t.Every IsSparing) :
    ReadsAs spare (t.tokens true) [t] ∧
      ((spare → ¬t.IsBracketed) → ReadsMembers spare (t.tokens false) [t]) := by
  suffices hread : ReadsAs spare (t.tokens true) [t] ∧
      (t.isBareChoice = true → ReadsMembers spare (t.tokens false) [t]) by
    refine ⟨hread.1, fun hbracketed => ?_⟩
    cases hbare : t.isBareChoice with
    | true => exact hread.2 hbare
    | false => exact readsMembers_of_readsAs hread.1 hbare hbracketed
  induction t with
  | leaf cls m => exact ⟨readsAs_leaf hshown (every_iff.mp h).1.least_lt, nofun⟩
  | sequence parts m ih =>
    obtain ⟨hreadable, hs⟩ := every_iff.mp h
    refine ⟨readsAs_sequence hshown hreadable (fun hspare' => (every_iff.mp (hspare hspare')).1)
      (readsAs_tokensOfParts fun t ht => ?_), nofun⟩
    exact (ih t ht (hs t ht) ((every_iff.mp hshown).2 t ht)
      (fun hspare' => (every_iff.mp (hregular hspare')).2 t ht)
      fun hspare' => (every_iff.mp (hspare hspare')).2 t ht).1
  | choice members m ih =>
    obtain ⟨hreadable, hs⟩ := every_iff.mp h
    have hlength : spare → 2 ≤ members.length := fun hspare' =>
      (every_iff.mp (hregular hspare')).1.shape
    have hmembers : ReadsMembers spare (tokensOfMembers members) members := by
      refine readsMembers_tokensOfMembers hreadable.filled fun t ht => ?_
      have hread := ih t ht (hs t ht) ((every_iff.mp hshown).2 t ht)
        (fun hspare' => (every_iff.mp (hregular hspare')).2 t ht)
        fun hspare' => (every_iff.mp (hspare hspare')).2 t ht
      cases hbare : t.isBareChoice with
      | true => exact hread.2 hbare
      | false => exact readsMembers_of_readsAs hread.1 hbare fun hspare' =>
          (every_iff.mp (hspare hspare')).1 t ht
    exact ⟨readsAs_choice hshown hreadable hlength rfl hmembers,
      fun hbare => readsMembers_choice (every_iff.mp hshown).1 hreadable.filled hbare hmembers⟩

/-! ## Patterns -/

/-- The tree of a group with a single member that has been read. -/
theorem of_resemblesMembers {ms : List Tree} (h : ResemblesMembers spare ms [t])
    (hx : ms = [x] ∨ ∃ source, x = (ofMembers ms).withSource source) :
    (∀ M, x.language M = t.language M) ∧ x.pins.plain = t.pins.plain ∧
      (spare → x.chars false = t.chars false) := by
  have hlanguage := fun M => (h.language M).trans (languageOfMembers_singleton t)
  have hpins := (h.pins (List.cons_ne_nil t [])).trans (congrArg _ (pinsOfMembers_singleton t))
  have hchars := h.charsOfMembers_eq (List.cons_ne_nil t [])
  rcases hx with rfl | ⟨source, rfl⟩
  · exact ⟨fun M => (languageOfMembers_singleton x).symm.trans (hlanguage M),
      (congrArg _ (pinsOfMembers_singleton x)).symm.trans hpins, hchars⟩
  · refine ⟨fun M => ?_, hpins, fun hs => ?_⟩
    · rw [language_withSource, language_ofMembers, hlanguage]
    · exact (chars_of_isBareChoice (isBareChoice_of_pins rfl rfl)).trans (hchars hs)

/-- What is read of the tokens of a tree from the beginning on. -/
theorem ReadsMembers.exists_tree (h : ReadsMembers spare ts [t]) (pattern : List Char) :
    ∃ r x, ({} : Reader).run pattern ts = (r, none) ∧ ({} : Reader).Beside r ∧
      r.frame.tree pattern r.position = .ok x ∧ BuiltPlain x ∧
      (∀ M, x.language M = t.language M) ∧ x.pins.plain = t.pins.plain ∧
      (spare → x.chars false = t.chars false) := by
  have hsteady : ({} : Reader).Steady :=
    Reader.steady_of_opened ⟨Frame.all_opened nofun _, nofun⟩ rfl
  obtain ⟨r, x, hrun, hall, hbeside, htree, ms, hms, hx⟩ :=
    h.readsInside pattern {} hsteady rfl rfl
  exact ⟨r, x, hrun, hbeside, htree, hall.frame.tree closed_builtPlain htree,
    of_resemblesMembers hms hx⟩

/-- A text that has the tokens of a tree is read as the tree. -/
theorem ReadsMembers.parse {options : Options} {pattern : List Char} (h : ReadsMembers spare ts [t])
    (htokens : tokens options.alphabet.space pattern = ts) :
    ∃ x, parse options pattern = .ok x ∧ BuiltPlain x ∧ (∀ M, x.language M = t.language M) ∧
      x.pins.plain = t.pins.plain ∧ (spare → x.chars false = t.chars false) := by
  obtain ⟨r, x, hrun, hbeside, htree, hx⟩ := h.exists_tree pattern
  refine ⟨x, ?_, hx⟩
  have houter : r.outer = [] := hbeside.outer
  have hlook : r.lookaround = none := hbeside.lookaround
  have hfinish : r.finish pattern options.whole = .ok x := by
    simp [Reader.finish, htree, houter, hlook, bind, Except.bind, pure, Except.pure]
  simp only [Pattern.parse, read, htokens, hrun]
  exact hfinish

end Pattern

/-- The tree can be told from its text: its characters are read back as they are, its pins are those
of the anchors that are written, and no text is added at its front. -/
structure Tree.IsLegible (t : Tree) : Prop where
  classes : t.Every HasLegibleClass
  apart : (t.tokens false).IsChain Pattern.Token.Apart
  shown : t.Every IsShown
  front : t.pins.front.inAll = true

instance : DecidablePred Tree.IsLegible := fun t =>
  decidable_of_iff (t.Every HasLegibleClass ∧ (t.tokens false).IsChain Pattern.Token.Apart ∧
      t.Every IsShown ∧ t.pins.front.inAll = true)
    ⟨fun ⟨hclasses, hapart, hshown, hfront⟩ => ⟨hclasses, hapart, hshown, hfront⟩,
      fun h => ⟨h.classes, h.apart, h.shown, h.front⟩⟩

/-- No group in the text of the tree could be left out. -/
def Tree.IsTerse (t : Tree) : Prop := t.Every IsSparing ∧ ¬t.IsBracketed

instance : DecidablePred Tree.IsTerse := fun t =>
  inferInstanceAs (Decidable (t.Every IsSparing ∧ ¬t.IsBracketed))

/-- The text of a legible tree is read as a tree that describes the same strings and is pinned
alike. If no group could be left out, it is written alike. -/
theorem Pattern.parse_chars (options : Options) {t : Tree} (h : t.Every IsRegular)
    (hlegible : t.IsLegible) : ∃ t', parse options (t.chars false) = .ok t' ∧
      (∀ M, t'.language M = t.language M) ∧ t'.pins.plain = t.pins.plain ∧
      (t.IsTerse → t'.chars false = t.chars false) := by
  have hread := (reads_tokens t.IsTerse h.readable hlegible.shown (fun _ => h) And.left).2 And.right
  have htokens := tokens_chars h.readable hlegible.classes hlegible.apart options.alphabet.space
  obtain ⟨t', hparse, -, ht'⟩ := hread.parse htokens
  exact ⟨t', hparse, ht'⟩

/-- A legible generator is compiled from its own text into a generator of the same strings, which
has the same text if no group in it could be left out. -/
theorem compile_text {options : Options} {pattern : String} {c : Compiled}
    (h : compile options pattern = .ok c) (hlegible : c.generator.root.IsLegible) :
    ∃ c', compile options c.generator.text = .ok c' ∧
      (∀ M, c'.generator.root.language M = c.generator.root.language M) ∧
      (c.generator.root.IsTerse → c'.generator.text = c.generator.text ∧
        (c'.generator == c.generator) = true) := by
  obtain ⟨hparse, hroot, -⟩ := of_compile h
  obtain ⟨t', hparse', hlanguage, hpins, hchars⟩ :=
    Pattern.parse_chars options (regular_of_completed hparse hroot) hlegible
  obtain ⟨hfront, hback, hbackAll, -⟩ := pins_of_completed hparse hroot
  have hpinned : ∀ side, (t'.pins.on side).inSome = true ∧ (t'.pins.on side).inAll = true := by
    have hside : ∀ side, (t'.pins.on side).plain = (c.generator.root.pins.on side).plain :=
      fun side => by rw [← Pins.on_plain, hpins, Pins.on_plain]
    rintro (_ | _)
    · exact ⟨(congrArg Pin.inSome (hside .front)).trans hfront,
        (congrArg Pin.inAll (hside .front)).trans hlegible.front⟩
    · exact ⟨(congrArg Pin.inSome (hside .back)).trans hback,
        (congrArg Pin.inAll (hside .back)).trans hbackAll⟩
  have htext : c.generator.text.toList = c.generator.root.chars false := String.toList_ofList
  refine ⟨_, compile_of_completed (htext ▸ hparse') (t'.completed_of_pinned options hpinned),
    hlanguage, fun hterse => ?_⟩
  have hsame : t'.text = c.generator.text := congrArg String.ofList (hchars hterse)
  exact ⟨hsame, Generator.beq_iff_text_eq.mpr hsame⟩

/-- A pattern with a branch that is pinned in its first member only. -/
theorem compile_text_branches :
    ∃ c c', compile {} "(^a|b+)(?:.|c)$|d*?" = .ok c ∧ c.generator.root.IsLegible ∧
      c.generator.root.IsTerse ∧ compile {} c.generator.text = .ok c' ∧
      (∀ M, c'.generator.root.language M = c.generator.root.language M) ∧
      c'.generator.text = c.generator.text := by
  obtain ⟨c, hc, htest⟩ := exists_of_compile
    (show ((compile {} "(^a|b+)(?:.|c)$|d*?").toOption.any fun c =>
      decide (c.generator.root.IsLegible ∧ c.generator.root.IsTerse)) = true by decide +kernel)
  obtain ⟨hlegible, hterse⟩ := of_decide_eq_true htest
  obtain ⟨c', hc', hlanguage, hsame⟩ := compile_text hc hlegible
  exact ⟨c, c', hc, hlegible, hterse, hc', hlanguage, (hsame hterse).1⟩

/-- A null character in front of a digit: together they are read as an octal escape. -/
theorem exists_compile_text_refused :
    ∃ c, compile {} "\\x001" = .ok c ∧
      compile {} c.generator.text = .error (.pattern ⟨.octalEscape, 3⟩) := by
  obtain ⟨c, hc, htext⟩ := exists_of_compile
    (show ((compile {} "\\x001").toOption.any fun c => c.generator.text = "^.*\\01.*$") = true by
      decide +kernel)
  refine ⟨c, hc, ?_⟩
  rw [of_decide_eq_true htext]
  exact compile_eq_error (by decide +kernel)

end Exemplar
