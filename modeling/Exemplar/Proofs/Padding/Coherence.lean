import Exemplar.Proofs.Padding.Steps
import Exemplar.Proofs.Pattern.Built
import Exemplar.Proofs.Pinning

/-!
# Pins of padded trees

The pins of trees that reading builds do not contradict each other. Padding at one side leaves them
coherent at the other, so that the other side can be padded next.

Where a node that may be missing is pinned at its back itself, the text that stands for the missing
node is pinned in all branches and in none. The choice that it is a member of is pinned in some
branches all the same, so this is never looked at.

## Main definitions

* `Tree.IsConsistent`: what holds of the pins of trees that reading builds
* `Tree.Padded`: what padding a tree at a side preserves

## Main results

* `Pattern.Built.consistent`: reading builds consistent trees
* `Tree.padded_of_pad`: padding preserves what padding at the other side needs
-/

namespace Exemplar

namespace Tree

variable {t : Tree}

theorem eq_false_of_imp {a b : Bool} (h : a = true → b = true) (hb : b = false) : a = false := by
  cases a with
  | false => rfl
  | true => exact (h rfl).symm.trans hb

/-- What is pinned in all branches is pinned in some, and a node is pinned in some branches where
its children are. -/
structure IsConsistent (t : Tree) : Prop where
  inSome_of_inAll : ∀ side, (t.pins.on side).inAll = true → (t.pins.on side).inSome = true
  inSome_of_derived : ∀ side, (t.derivedPins.on side).inSome = true →
    (t.pins.on side).inSome = true

theorem Every.imp {P Q : Tree → Prop} (h : t.Every P)
    (hPQ : ∀ t, P t → (∀ c ∈ t.children, P c) → Q t) : t.Every Q := by
  induction t using inductChildren with
  | node t ih =>
    obtain ⟨ht, hs⟩ := every_iff.mp h
    exact every_iff.mpr
      ⟨hPQ t ht fun c hc => (every_iff.mp (hs c hc)).1, fun c hc => ih c hc (hs c hc)⟩

/-- Consistent pins are coherent at both sides: a child that is pinned in all branches is pinned in
some, and so is the node. -/
theorem Every.coherent (h : t.Every IsConsistent) : t.Every IsCoherent :=
  h.imp fun t ht hs =>
    { inSome_of_derived := ht.inSome_of_derived
      inAll_of_derived := fun side hderived c hc => by
        by_contra hall
        have := (hs c (mem_children_of_outermost hc)).inSome_of_inAll side (by simpa using hall)
        rw [derived_inSome_eq_false.mp hderived c hc] at this
        cases this }

@[simp] theorem derivedPins_withMark (t : Tree) (m : Mark) :
    (t.withMark m).derivedPins = t.derivedPins := by
  cases t <;> rfl

@[simp] theorem outermost_withMark (t : Tree) (m : Mark) (side : Side) :
    (t.withMark m).outermost side = t.outermost side := by
  cases t <;> rfl

@[simp] theorem pins_withMark (t : Tree) (m : Mark) : (t.withMark m).pins = m.pins := by
  rw [pins, mark_withMark]

/-- Another mark with pins that are no fewer and do not contradict each other. -/
theorem IsConsistent.withMark (h : t.IsConsistent) {m : Mark}
    (hall : ∀ side, (m.pins.on side).inAll = true → (m.pins.on side).inSome = true)
    (hsome : ∀ side, (t.pins.on side).inSome = true → (m.pins.on side).inSome = true) :
    (t.withMark m).IsConsistent where
  inSome_of_inAll side := by simpa using hall side
  inSome_of_derived side hd := by
    rw [pins_withMark]
    exact hsome side (h.inSome_of_derived side (by simpa using hd))

/-- Pins that are consistent can be set on a tree whose pins are. -/
theorem Every.consistent_pinned (h : t.Every IsConsistent) {p : Pins}
    (hp : ∀ side, (p.on side).inAll = true → (p.on side).inSome = true) :
    (t.pinned p).Every IsConsistent := by
  have ht := (every_iff.mp h).1
  refine h.withMark (ht.withMark ?_ ?_)
  · intro side
    simp only [Pins.on_union, Pin.union, Bool.or_eq_true]
    exact Or.imp (ht.inSome_of_inAll side) (hp side)
  · intro side hs
    simp [Pin.union, hs]

/-- How often a node occurs makes no difference to its pins. -/
theorem Every.consistent_withOccurs (h : t.Every IsConsistent) (occurs : Extent) :
    (t.withOccurs occurs).Every IsConsistent := by
  have ht := (every_iff.mp h).1
  refine h.withMark (ht.withMark ?_ ?_)
  · intro side
    split
    · simp [Pin.loosen]
    · exact ht.inSome_of_inAll side
  · intro side
    split
    · simp [Pin.loosen]
    · exact id

/-- Children that are pinned in some branches where they are pinned in all make up such a node. A
choice without members is not pinned in all branches. -/
theorem inSome_of_derived_inAll (side : Side)
    (h : ∀ c ∈ t.children, (c.pins.on side).inAll = true → (c.pins.on side).inSome = true)
    (hall : (t.derivedPins.on side).inAll = true) : (t.derivedPins.on side).inSome = true := by
  by_contra hsome
  have hsome' := derived_inSome_eq_false.mp (Bool.not_eq_true _ ▸ hsome)
  cases t with
  | leaf =>
    rw [derivedPins, Pins.on_free] at hall
    cases hall
  | sequence parts m =>
    rw [derivedPins, pinsOfParts_on] at hall
    cases hout : side.outermost parts with
    | none =>
      rw [hout] at hall
      cases hall
    | some c =>
      rw [hout] at hall
      have := h c (Side.mem_of_outermost hout) hall
      rw [hsome' c (Option.mem_toList.mpr hout)] at this
      cases this
  | choice members m =>
    rw [derivedPins, pinsOfMembers_on] at hall
    cases members with
    | nil => cases hall
    | cons c members =>
      have := h c List.mem_cons_self
        (inAll_ofBranches hall _ (List.mem_map_of_mem List.mem_cons_self))
      rw [hsome' c List.mem_cons_self] at this
      cases this

/-- A node that occurs once and is pinned only as its children pin it. -/
theorem every_consistent_of_derived (hp : t.pins = t.derivedPins)
    (h : ∀ c ∈ t.children, c.Every IsConsistent) : t.Every IsConsistent := by
  refine .node t ⟨?_, ?_⟩ h
  · intro side
    rw [hp]
    exact inSome_of_derived_inAll side fun c hc => (every_iff.mp (h c hc)).1.inSome_of_inAll side
  · intro side
    rw [hp]
    exact id

end Tree

/-! ## Reading -/

/-- Reading builds trees whose pins are consistent. A quantifier goes to the atom itself, or to a
sequence around it. -/
theorem Pattern.Built.consistent {t : Tree} (h : Built t) : t.Every Tree.IsConsistent := by
  induction h with
  | ofClass cls =>
    exact Tree.every_consistent_of_derived rfl (by simp [Tree.ofClass, Tree.children])
  | empty =>
    exact Tree.every_consistent_of_derived rfl (by simp [Tree.empty, Tree.ofParts, Tree.children])
  | withSource source _ ih =>
    have ht := (Tree.every_iff.mp ih).1
    exact ih.withMark (ht.withMark ht.inSome_of_inAll fun _ => id)
  | ofParts _ _ ih =>
    apply Tree.every_consistent_of_derived rfl
    intro t ht
    obtain ⟨part, hpart, rfl⟩ := List.mem_map.mp ht
    exact ih part hpart
  | ofMembers _ ih => exact Tree.every_consistent_of_derived rfl ih
  | repeated _ _ _ ih =>
    apply Tree.Every.consistent_withOccurs
    split
    · exact ih
    · exact Tree.every_consistent_of_derived rfl (by simpa [Tree.ofParts, Tree.children] using ih)
  | looked t _ ih =>
    apply ih.consistent_pinned
    intro side
    cases side <;> simp only [Term.lookPins, Pins.on] <;> split <;> simp [Pin.look, Pin.free]
  | anchored side _ _ ih =>
    apply ih.consistent_pinned
    intro s
    rcases side.eq_or_eq_other s with rfl | rfl <;> simp [Pin.anchor, Pin.free]

/-! ## Padding -/

namespace Tree

variable {side : Side} {t r : Tree}

/-- What padding at a side preserves: the pins stay coherent, what is pinned in all branches is
pinned in some, and what was pinned at the other side still is. -/
structure Padded (side : Side) (t r : Tree) : Prop where
  coherent : r.Every IsCoherent
  inSome_of_inAll : ∀ s, (r.pins.on s).inAll = true → (r.pins.on s).inSome = true
  keeps : (t.pins.on side.other).inSome = true → (r.pins.on side.other).inSome = true

@[simp] theorem pins_pinned (t : Tree) (p : Pins) : (t.pinned p).pins = t.pins.union p := by
  rw [pinned, pins_withMark]

@[simp] theorem derivedPins_pinned (t : Tree) (p : Pins) :
    (t.pinned p).derivedPins = t.derivedPins := derivedPins_withMark t _

@[simp] theorem derivedPins_single (t : Tree) : t.single.derivedPins = t.derivedPins := by
  cases t <;> rfl

/-- A single occurrence is pinned as its children and the node itself are. -/
theorem pins_single_on (t : Tree) (s : Side) :
    (t.single.pins.on s) = (t.derivedPins.on s).union (t.ownPins.on s) := by
  cases t <;> simp only [single, pins_pinned, Pins.on_union] <;> rfl

@[simp] theorem ownPins_on (t : Tree) (s : Side) :
    t.ownPins.on s = (t.pins.on s).diff (t.derivedPins.on s) := by
  rw [ownPins, Pins.on_diff]

theorem inSome_single {s : Side} (h : (t.pins.on s).inSome = true) :
    (t.single.pins.on s).inSome = true := by
  rw [pins_single_on, ownPins_on]
  simp only [Pin.union, Pin.diff, h]
  cases (t.derivedPins.on s).inSome <;> rfl

/-- A single occurrence of a consistent node is consistent. -/
theorem Every.consistent_single (h : t.Every IsConsistent) : t.single.Every IsConsistent := by
  obtain ⟨ht, hs⟩ := every_iff.mp h
  refine .node _ ⟨?_, ?_⟩ (by simpa using hs)
  · intro side
    rw [pins_single_on, ownPins_on]
    have hderived := inSome_of_derived_inAll side fun c hc =>
      (every_iff.mp (hs c hc)).1.inSome_of_inAll side
    have hall := ht.inSome_of_inAll side
    simp only [Pin.union, Pin.diff, Bool.or_eq_true, Bool.and_eq_true, Bool.not_eq_true']
    cases hsome : (t.derivedPins.on side).inSome
    · rintro (h | h)
      · exact .inl (hsome ▸ hderived h)
      · exact .inr ⟨hall h.1, rfl⟩
    · exact fun _ => .inl rfl
  · intro side h
    rw [derivedPins_single] at h
    rw [pins_single_on, Pin.union, h, Bool.true_or]

/-- Setting pins on a coherent tree leaves it coherent. -/
theorem Every.coherent_pinned (h : t.Every IsCoherent) (p : Pins) :
    (t.pinned p).Every IsCoherent := by
  have ht := (every_iff.mp h).1
  refine h.withMark ⟨?_, ?_⟩
  · intro side hs
    rw [derivedPins_withMark] at hs
    rw [pins_withMark, Pins.on_union, Pin.union, ht.inSome_of_derived side hs, Bool.true_or]
  · intro side hs
    rw [derivedPins_withMark] at hs
    rw [outermost_withMark]
    exact ht.inAll_of_derived side hs

theorem every_coherent_leaf (cls : CharClass) (m : Mark) : (leaf cls m).Every IsCoherent := by
  refine .node _ ⟨?_, ?_⟩ (by simp [children])
  · intro side h
    rw [derivedPins, Pins.on_free] at h
    cases h
  · intro side _ c hc
    cases hc

theorem wrap_on (t : Tree) : (t.wrap side).pins.on side = (padding.pins.on side).union .anchor := by
  rw [wrap_eq, pins_pinned, Pins.on_union, Pins.on_only,
    show (ofParts (side.place padding [t])).pins = pinsOfParts (side.place padding [t]) from rfl,
    pinsOfParts_on, Side.outermost_place]
  rfl

theorem wrap_on_other (t : Tree) :
    (t.wrap side).pins.on side.other = (t.pins.on side.other).union .free := by
  rw [wrap_eq, pins_pinned, Pins.on_union, Pins.on_only_other,
    show (ofParts (side.place padding [t])).pins = pinsOfParts (side.place padding [t]) from rfl,
    pinsOfParts_on, Side.outermost_other_place, Side.outermost_singleton]
  rfl

/-- A tree that is wrapped in text keeps its pins at the other side: the text is pinned nowhere, and
the tree is as it was. -/
theorem padded_wrap (h : t.Every IsConsistent) : Padded side t (t.wrap side) := by
  have ht := (every_iff.mp h).1
  refine ⟨.node _ ⟨?_, ?_⟩ ?_, ?_, ?_⟩
  · intro s hs
    rw [wrap_eq, pins_pinned, Pins.on_union, Pin.union]
    rw [wrap_eq, derivedPins_pinned] at hs
    exact (Bool.or_eq_true _ _).mpr (.inl hs)
  · intro s hs c hc
    rw [wrap_eq, derivedPins_pinned] at hs
    rw [wrap_eq, Tree.pinned, outermost_withMark] at hc
    have hsome := derived_inSome_eq_false.mp hs c hc
    have hor : c = padding ∨ c = t := by
      simpa [ofParts, children] using mem_children_of_outermost hc
    rcases hor with rfl | rfl
    · cases s <;> rfl
    · exact eq_false_of_imp (ht.inSome_of_inAll s) hsome
  · intro c hc
    rw [wrap_eq, Tree.pinned, children_withMark] at hc
    have hor : c = padding ∨ c = t := by simpa [ofParts, children] using hc
    rcases hor with rfl | rfl
    · exact every_coherent_leaf _ _
    · exact h.coherent
  · intro s
    rcases side.eq_or_eq_other s with rfl | rfl
    · rw [wrap_on]
      simp [Pin.union, Pin.anchor]
    · rw [wrap_on_other]
      simpa [Pin.union, Pin.free] using ht.inSome_of_inAll side.other
  · intro hs
    rw [wrap_on_other, Pin.union, hs, Bool.true_or]

/-- A node that is rebuilt around padded children keeps the pins set on it. What is pinned in all
branches is so by the children or by the node itself. -/
theorem padded_rebuilt {u around : Tree} (hu : u.IsConsistent)
    (hall : (u.pins.on side).inAll = false) (hpins : around.pins = around.derivedPins)
    (hchildren : ∀ c ∈ around.children, c.Every IsCoherent)
    (hsome : ∀ c ∈ around.children, ∀ s, (c.pins.on s).inAll = true → (c.pins.on s).inSome = true)
    (hkeep : (u.derivedPins.on side.other).inSome = true →
      (around.derivedPins.on side.other).inSome = true) : Padded side u (u.rebuilt around) := by
  have hp : ∀ s,
      (u.rebuilt around).pins.on s = (around.derivedPins.on s).union (u.ownPins.on s) := by
    intro s
    rw [rebuilt, pins_withMark, ← Pins.on_union, ← hpins, ← pins_pinned]
    rfl
  have hd : (u.rebuilt around).derivedPins = around.derivedPins := by
    rw [rebuilt, derivedPins_withMark, derivedPins_pinned]
  refine ⟨.node _ ⟨?_, ?_⟩ ?_, ?_, ?_⟩
  · intro s hs
    rw [hp, Pin.union, ← hd, hs, Bool.true_or]
  · intro s hs c hc
    rw [rebuilt, outermost_withMark, Tree.pinned, outermost_withMark] at hc
    rw [hd] at hs
    exact eq_false_of_imp (hsome c (mem_children_of_outermost hc) s)
      (derived_inSome_eq_false.mp hs c hc)
  · intro c hc
    rw [rebuilt, children_withMark, Tree.pinned, children_withMark] at hc
    exact hchildren c hc
  · intro s
    rw [hp, ownPins_on]
    have hderived := inSome_of_derived_inAll s fun c hc => hsome c hc s
    have hu' := hu.inSome_of_inAll s
    simp only [Pin.union, Pin.diff, Bool.or_eq_true, Bool.and_eq_true, Bool.not_eq_true']
    rintro (h | ⟨h, -⟩)
    · exact .inl (hderived h)
    · rcases side.eq_or_eq_other s with rfl | rfl
      · rw [hall] at h
        cases h
      · cases hs : (u.derivedPins.on side.other).inSome with
        | true => exact .inl (hkeep hs)
        | false => exact .inr ⟨hu' h, rfl⟩
  · intro hs
    rw [hp, ownPins_on]
    simp only [Pin.union, Pin.diff, Bool.or_eq_true, Bool.and_eq_true, Bool.not_eq_true']
    cases hs' : (u.derivedPins.on side.other).inSome with
    | true => exact .inl (hkeep hs')
    | false => exact .inr ⟨hs, rfl⟩

/-- Where a node that may be missing is pinned itself in all branches, its padded occurrence is pinned
in some. -/
theorem Padded.inSome_of_own {present : Tree} (hp : Padded side t.single present)
    (ht : t.IsConsistent) (hall : (t.pins.on side).inAll = false) {s : Side}
    (h : (Pins.on { back := t.ownPins.back } s).inAll = true) :
    (present.pins.on s).inSome = true := by
  cases s with
  | front => cases h
  | back =>
    have hback : (t.pins.on .back).inAll = true := by
      have : ((t.pins.on .back).diff (t.derivedPins.on .back)).inAll = true := h
      exact (Bool.and_eq_true_iff.mp this).1
    cases side with
    | front => exact hp.keeps (inSome_single (ht.inSome_of_inAll .back hback))
    | back =>
      rw [hall] at hback
      cases hback

theorem inSome_of_ofMembers_pair {a b : Tree} {s : Side}
    (h : ((ofMembers [a, b]).pins.on s).inSome = false) :
    (a.pins.on s).inSome = false ∧ (b.pins.on s).inSome = false := by
  have hs : ((ofMembers [a, b]).derivedPins.on s).inSome = false := h
  have := derived_inSome_eq_false.mp hs
  exact ⟨this a (by simp [ofMembers, outermost]), this b (by simp [ofMembers, outermost])⟩

/-- A choice of two trees, of which the second is pinned in all branches only where one of both is
pinned in some. -/
theorem coherent_ofMembers_pair {a b : Tree} (ha : a.Every IsCoherent) (hb : b.Every IsCoherent)
    (hsome : ∀ s, (a.pins.on s).inAll = true → (a.pins.on s).inSome = true)
    (hnone : ∀ s, (a.pins.on s).inSome = false → (b.pins.on s).inSome = false →
      (b.pins.on s).inAll = false) :
    (ofMembers [a, b]).Every IsCoherent ∧
      ∀ s, ((ofMembers [a, b]).pins.on s).inAll = true →
        ((ofMembers [a, b]).pins.on s).inSome = true := by
  refine ⟨.node _ ⟨fun s => id, ?_⟩ ?_, ?_⟩
  · intro s hs c hc
    obtain ⟨hs₁, hs₂⟩ := inSome_of_ofMembers_pair hs
    rcases List.mem_pair.mp hc with rfl | rfl
    · exact eq_false_of_imp (hsome s) hs₁
    · exact hnone s hs₁ hs₂
  · intro c hc
    rcases List.mem_pair.mp hc with rfl | rfl
    · exact ha
    · exact hb
  · intro s hs
    by_contra hnot
    obtain ⟨hs₁, -⟩ := inSome_of_ofMembers_pair (Bool.eq_false_of_not_eq_true hnot)
    have hmembers : (Pin.ofBranches ([a, b].map (·.pins.on s))).inAll = true := by
      rwa [← pinsOfMembers_on]
    rw [hsome s (inAll_ofBranches hmembers _ (by simp))] at hs₁
    cases hs₁

/-- The choice between a padded occurrence and none. What stands for the missing node is pinned only
if the padded occurrence is pinned somewhere. -/
theorem padded_presentOrAbsent {present : Tree} (ht : t.IsConsistent)
    (hall : (t.pins.on side).inAll = false) (hp : Padded side t.single present) :
    Padded side t (t.presentOrAbsent side present) := by
  have hown := fun s => hp.inSome_of_own ht hall (s := s)
  rw [presentOrAbsent, absent]
  generalize ({ back := t.ownPins.back } : Pins) = trailing at hown ⊢
  have hpresent : ∀ s, ((present.pinned trailing).pins.on s).inAll = true →
      ((present.pinned trailing).pins.on s).inSome = true := by
    intro s
    simp only [pins_pinned, Pins.on_union, Pin.union, Bool.or_eq_true]
    exact fun h => .inl (h.elim (hp.inSome_of_inAll s) (hown s))
  have hnone : ∀ s, ((present.pinned trailing).pins.on s).inSome = false →
      ((padding.pinned ((Pins.only side .anchor).union trailing)).pins.on s).inSome = false →
      ((padding.pinned ((Pins.only side .anchor).union trailing)).pins.on s).inAll = false := by
    intro s hsome
    simp only [pins_pinned, Pins.on_union, Pin.union, Bool.or_eq_false_iff] at hsome ⊢
    rcases side.eq_or_eq_other s with rfl | rfl
    · rw [Pins.on_only]
      rintro ⟨-, h, -⟩
      cases h
    · rw [Pins.on_only_other]
      refine fun _ => ⟨by cases side <;> rfl, rfl, eq_false_of_imp (hown _) hsome.1⟩
  have hpadding : padding.Every IsCoherent := every_coherent_leaf _ _
  obtain ⟨hcoherent, hsome⟩ := coherent_ofMembers_pair (hp.coherent.coherent_pinned trailing)
    (hpadding.coherent_pinned _) hpresent hnone
  refine ⟨hcoherent, hsome, fun hs => ?_⟩
  by_contra hnot
  obtain ⟨hfirst, -⟩ := inSome_of_ofMembers_pair (Bool.eq_false_of_not_eq_true hnot)
  rw [pins_pinned, Pins.on_union, Pin.union, hp.keeps (inSome_single hs)] at hfirst
  cases hfirst

/-- A step of padding leaves a consistent node padded, if what is put inside of it is. A single
occurrence cannot be missing, so it is not taken apart again. -/
theorem PadStep.padded {inside : Tree → Tree → Prop} (hp : PadStep side inside t r)
    (h : t.Every IsConsistent) (hin : ∀ u v, (u = t ∨ u = t.single) →
      (u.pins.on side).inAll = false → inside u v → Padded side u v) : Padded side t r := by
  cases hp with
  | kept hall => exact ⟨h.coherent, (every_iff.mp h).1.inSome_of_inAll, id⟩
  | wrapped => exact padded_wrap h
  | opened hall _ _ hin' => exact hin _ _ (.inl rfl) hall hin'
  | optional hall _ _ hsingle =>
    refine padded_presentOrAbsent (every_iff.mp h).1 hall ?_
    have hs := h.consistent_single
    cases hsingle with
    | kept => exact ⟨hs.coherent, (every_iff.mp hs).1.inSome_of_inAll, id⟩
    | wrapped => exact padded_wrap hs
    | opened hall' _ _ hin' => exact hin _ _ (.inr rfl) hall' hin'
    | optional _ _ hoccurs _ =>
      rw [occurs_single] at hoccurs
      cases hoccurs

/-- At the other side the same part stands as before, if it is not the one that was padded. -/
theorem PaddedEnd.outermost_other {parts parts' : List Tree} (h : PaddedEnd side parts parts') :
    side.other.outermost parts' = side.other.outermost parts ∨
      ∃ c c', c.pad side = .ok c' ∧ c ∈ parts ∧ side.other.outermost parts = some c ∧
        side.other.outermost parts' = some c' := by
  obtain ⟨c, c', rest, hc, rfl, rfl⟩ := h
  rw [Side.outermost_other_place, Side.outermost_other_place]
  cases side.other.outermost rest with
  | none => exact .inr ⟨c, c', hc, Side.mem_place.mpr (.inl rfl), rfl, rfl⟩
  | some a => exact .inl rfl

theorem Every.consistent_of_or {u : Tree} (h : t.Every IsConsistent) (hu : u = t ∨ u = t.single) :
    u.IsConsistent := by
  rcases hu with rfl | rfl
  · exact (every_iff.mp h).1
  · exact (every_iff.mp h.consistent_single).1

theorem derivedPins_of_or {u : Tree} (hu : u = t ∨ u = t.single) :
    u.derivedPins = t.derivedPins := by
  rcases hu with rfl | rfl
  · rfl
  · exact derivedPins_single t

/-- Padding a consistent tree at one side leaves it coherent at the other. By induction on the tree,
as the children at the side are padded with it. -/
theorem padded_of_pad (h : t.Every IsConsistent) (hp : t.pad side = .ok r) : Padded side t r := by
  induction t generalizing r with
  | leaf cls m => exact (padStep_of_pad hp).padded h fun _ _ _ _ hin => nomatch hin
  | sequence parts m ih =>
    have hs : ∀ c ∈ parts, c.Every IsConsistent := (every_iff.mp h).2
    apply (padStep_of_pad hp).padded h
    intro u v hu hall hin
    obtain ⟨parts', hend, rfl⟩ := hin
    refine padded_rebuilt (h.consistent_of_or hu) hall rfl ?_ ?_ ?_
    · intro c hc
      rcases hend.mem hc with hc | ⟨b, hb, hpad⟩
      · exact (hs c hc).coherent
      · exact (ih b hb (hs b hb) hpad).coherent
    · intro c hc
      rcases hend.mem hc with hc | ⟨b, hb, hpad⟩
      · exact (every_iff.mp (hs c hc)).1.inSome_of_inAll
      · exact (ih b hb (hs b hb) hpad).inSome_of_inAll
    · rw [derivedPins_of_or hu, derivedPins, ofParts, derivedPins, pinsOfParts_on, pinsOfParts_on]
      rcases hend.outermost_other with heq | ⟨b, b', hpad, hb, hout, hout'⟩
      · rw [heq]
        exact id
      · rw [hout, hout']
        exact (ih b hb (hs b hb) hpad).keeps
  | choice members m ih =>
    have hs : ∀ c ∈ members, c.Every IsConsistent := (every_iff.mp h).2
    apply (padStep_of_pad hp).padded h
    intro u v hu hall hin
    obtain ⟨members', hmembers, rfl⟩ := hin
    refine padded_rebuilt (h.consistent_of_or hu) hall rfl ?_ ?_ ?_
    · intro c hc
      obtain ⟨b, hb, hpad⟩ := exists_left_of_mem hmembers hc
      exact (ih b hb (hs b hb) hpad).coherent
    · intro c hc
      obtain ⟨b, hb, hpad⟩ := exists_left_of_mem hmembers hc
      exact (ih b hb (hs b hb) hpad).inSome_of_inAll
    · rw [derivedPins_of_or hu, derivedPins, ofMembers, derivedPins, pinsOfMembers_on,
        pinsOfMembers_on]
      simp only [Pin.ofBranches, List.any_map, List.any_eq_true, Function.comp_apply]
      rintro ⟨b, hb, hsome⟩
      obtain ⟨b', hb', hpad⟩ := exists_right_of_mem hmembers hb
      exact ⟨b', hb', (ih b hb (hs b hb) hpad).keeps hsome⟩

end Tree

end Exemplar
