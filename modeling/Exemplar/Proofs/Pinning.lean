import Exemplar.Proofs.Derivation
import Exemplar.Proofs.Sides

/-!
# Pins and derivations

What the pins of a node say of its derivations: where the node is pinned in all branches, every
derivation is, and where it is pinned in none, no derivation is. The second needs pins that do not
contradict each other.

## Main definitions

* `Tree.IsCoherent`: the pins of a node do not contradict each other or those of its children

## Main results

* `Tree.Derives.on_of_inAll`: pinned in all branches
* `Tree.Derives.on_eq_false`: pinned in none
* `Tree.derives_ofParts`, `Tree.derives_ofMembers`, `Tree.derives_pinned`: derivations from trees
  that are put together
-/

namespace Exemplar

theorem Derived.join_on (ds : List Derived) (side : Side) :
    (join ds).on side = (side.outermost ds).any (·.on side) := by
  cases side <;> rfl

namespace Tree

variable {M : Meaning} {t : Tree} {d e : Derived} {side : Side}

/-! ### Pinned in all branches -/

theorem Derives.on_of_inAll (hd : t.Derives M d) (h : (t.pins.on side).inAll = true) :
    d.on side = true := by
  obtain ⟨ds, -, -, rfl⟩ := hd
  rw [Derived.on_pinned, show (t.mark.pins.on side).inAll = true from h, Bool.true_or]

theorem inAll_ofBranches {pins : List Pin} (h : (Pin.ofBranches pins).inAll = true) :
    ∀ p ∈ pins, p.inAll = true := by
  simp only [Pin.ofBranches, Bool.and_eq_true, List.all_eq_true] at h
  exact h.2

/-- Where the children pin a node in all branches, they pin each of its derivations. The part at the
side goes with the derivation at the side. -/
theorem DerivesOnce.on_of_derived (he : t.DerivesOnce M e)
    (h : (t.derivedPins.on side).inAll = true) : e.on side = true := by
  cases t with
  | leaf cls m =>
    rw [derivedPins, Pins.on_free] at h
    cases h
  | sequence parts m =>
    obtain ⟨es, hes, rfl⟩ := derivesOnce_sequence.mp he
    rw [derivedPins, pinsOfParts_on] at h
    rw [Derived.join_on]
    have hrel := side.outermost_rel hes
    generalize side.outermost parts = first at h hrel
    generalize side.outermost es = derived at hrel ⊢
    cases hrel with
    | none => cases h
    | some hd => exact hd.on_of_inAll h
  | choice members m =>
    obtain ⟨c, hc, hd⟩ := derivesOnce_choice.mp he
    rw [derivedPins, pinsOfMembers_on] at h
    exact hd.on_of_inAll (inAll_ofBranches h _ (List.mem_map_of_mem hc))

/-- What the children pin already need not be pinned by the node. Only where the children pin the
derivation are the pins of the node more than its own. -/
theorem DerivesOnce.pinned_ownPins (he : t.DerivesOnce M e) :
    e.pinned t.pins = e.pinned t.ownPins := by
  ext side
  · rfl
  · have : (t.derivedPins.on side).inAll = true → e.on side = true := he.on_of_derived
    simp only [ownPins, Derived.on_pinned, Pins.on_diff, Pin.diff]
    cases hall : (t.derivedPins.on side).inAll with
    | true => simp [this hall]
    | false => simp

theorem DerivesOnce.pinned_derivedPins (he : t.DerivesOnce M e) : e.pinned t.derivedPins = e := by
  ext side
  · rfl
  · have : (t.derivedPins.on side).inAll = true → e.on side = true := he.on_of_derived
    rw [Derived.on_pinned]
    cases hall : (t.derivedPins.on side).inAll with
    | true => rw [this hall, Bool.or_true]
    | false => rfl

/-! ### Derivations from nodes -/

/-- A node that occurs just once derives what its children derive. -/
theorem derives_iff_of_once (h : t.occurs = .once) :
    t.Derives M d ↔ ∃ e, t.DerivesOnce M e ∧ d = e.pinned t.ownPins := by
  have hocc : t.mark.occurs = .once := h
  constructor
  · rintro ⟨ds, hn, hds, rfl⟩
    rw [hocc, Extent.admits_once, List.length_eq_one_iff] at hn
    obtain ⟨e, rfl⟩ := hn
    have he := hds e (List.mem_singleton_self e)
    refine ⟨e, he, ?_⟩
    rw [Derived.join_singleton]
    exact he.pinned_ownPins
  · rintro ⟨e, he, rfl⟩
    refine ⟨[e], by rw [hocc, Extent.admits_once]; rfl, by simpa using he, ?_⟩
    rw [Derived.join_singleton]
    exact he.pinned_ownPins.symm

/-- A node that may be missing derives nothing or what its children derive. -/
theorem derives_iff_of_optional (h : t.occurs = .optional) :
    t.Derives M d ↔
      d = (Derived.join []).pinned t.pins ∨ ∃ e, t.DerivesOnce M e ∧ d = e.pinned t.ownPins := by
  have hocc : t.mark.occurs = .optional := h
  constructor
  · rintro ⟨ds, hn, hds, rfl⟩
    rw [hocc, Extent.admits_optional, Nat.le_one_iff_eq_zero_or_eq_one, List.length_eq_zero_iff,
      List.length_eq_one_iff] at hn
    rcases hn with rfl | ⟨e, rfl⟩
    · exact .inl rfl
    · have he := hds e (List.mem_singleton_self e)
      refine .inr ⟨e, he, ?_⟩
      rw [Derived.join_singleton]
      exact he.pinned_ownPins
  · rintro (rfl | ⟨e, he, rfl⟩)
    · exact ⟨[], by rw [hocc, Extent.admits_optional]; exact Nat.zero_le _, by simp, rfl⟩
    · refine ⟨[e], by rw [hocc, Extent.admits_optional]; exact Nat.le_refl _, by simpa using he, ?_⟩
      rw [Derived.join_singleton]
      exact he.pinned_ownPins.symm

theorem pinned_union (p q : Pins) (d : Derived) : d.pinned (p.union q) = (d.pinned p).pinned q := by
  ext side
  · rfl
  · simp only [Derived.on_pinned, Pins.on_union, Pin.union]
    cases (p.on side).inAll <;> cases (q.on side).inAll <;> rfl

theorem derives_withMark {m : Mark} :
    (t.withMark m).Derives M d ↔ m.Repeats (t.DerivesOnce M) d := by
  simp only [Derives, Mark.Repeats, mark_withMark, derivesOnce_withMark]

theorem derives_pinned {pins : Pins} :
    (t.pinned pins).Derives M d ↔ ∃ e, t.Derives M e ∧ d = e.pinned pins := by
  rw [Tree.pinned, derives_withMark]
  constructor
  · rintro ⟨ds, hn, hds, rfl⟩
    exact ⟨_, ⟨ds, hn, hds, rfl⟩, pinned_union t.pins pins (.join ds)⟩
  · rintro ⟨_, ⟨ds, hn, hds, rfl⟩, rfl⟩
    exact ⟨ds, hn, hds, (pinned_union t.pins pins (.join ds)).symm⟩

theorem derives_withSource {source : String} :
    (t.withSource source).Derives M d ↔ t.Derives M d := by
  rw [withSource, derives_withMark]
  rfl

/-- A node that occurs once and is pinned only as its children pin it. -/
theorem derives_iff_derivesOnce (h : t.occurs = .once) (hp : t.pins = t.derivedPins) :
    t.Derives M d ↔ t.DerivesOnce M d := by
  rw [derives_iff_of_once h]
  constructor
  · rintro ⟨e, he, rfl⟩
    rwa [← he.pinned_ownPins, hp, he.pinned_derivedPins]
  · intro he
    exact ⟨d, he, by rw [← he.pinned_ownPins, hp, he.pinned_derivedPins]⟩

theorem derives_ofParts {parts : List Tree} :
    (ofParts parts).Derives M d ↔
      ∃ es, List.Forall₂ (fun t d => t.Derives M d) parts es ∧ d = .join es := by
  rw [derives_iff_derivesOnce rfl rfl, ofParts, derivesOnce_sequence]

theorem derives_ofMembers {members : List Tree} :
    (ofMembers members).Derives M d ↔ ∃ t ∈ members, t.Derives M d := by
  rw [derives_iff_derivesOnce rfl rfl, ofMembers, derivesOnce_choice]

/-! ### Languages of trees that are put together -/

/-- Pins make no difference to the strings that a tree describes. -/
theorem mem_language_pinned {pins : Pins} {w : List Char} :
    w ∈ (t.pinned pins).language M ↔ w ∈ t.language M := by
  rw [mem_language, mem_language]
  constructor
  · rintro ⟨_, hd, rfl⟩
    obtain ⟨e, he, rfl⟩ := derives_pinned.mp hd
    exact ⟨e, he, rfl⟩
  · rintro ⟨e, he, rfl⟩
    exact ⟨e.pinned pins, derives_pinned.mpr ⟨e, he, rfl⟩, rfl⟩

theorem mem_language_ofMembers {members : List Tree} {w : List Char} :
    w ∈ (ofMembers members).language M ↔ ∃ u ∈ members, w ∈ u.language M := by
  simp only [mem_language, derives_ofMembers]
  constructor
  · rintro ⟨d, ⟨u, hu, hd⟩, hw⟩
    exact ⟨u, hu, d, hd, hw⟩
  · rintro ⟨u, hu, d, hd, hw⟩
    exact ⟨d, ⟨u, hu, hd⟩, hw⟩

/-! ### Pinned in no branch -/

/-- The children from which a node is pinned at the side. -/
def outermost (side : Side) : Tree → List Tree
  | leaf _ _ => []
  | sequence parts _ => (side.outermost parts).toList
  | choice members _ => members

theorem mem_children_of_outermost {c : Tree} (h : c ∈ t.outermost side) : c ∈ t.children := by
  cases t with
  | leaf => cases h
  | sequence parts m => exact Side.mem_of_outermost (Option.mem_toList.mp h)
  | choice members m => exact h

/-- A node is pinned in some branches where its children are, and children that are pinned in none
are not pinned in all. -/
structure IsCoherent (t : Tree) : Prop where
  inSome_of_derived : ∀ side, (t.derivedPins.on side).inSome = true →
    (t.pins.on side).inSome = true
  inAll_of_derived : ∀ side, (t.derivedPins.on side).inSome = false →
    ∀ c ∈ t.outermost side, (c.pins.on side).inAll = false

/-- The children pin no branch at a side just if no outermost one does. -/
theorem derived_inSome_eq_false :
    (t.derivedPins.on side).inSome = false ↔
      ∀ c ∈ t.outermost side, (c.pins.on side).inSome = false := by
  cases t with
  | leaf => simp [derivedPins, outermost, Pin.free]
  | sequence parts m =>
    rw [derivedPins, pinsOfParts_on, outermost]
    cases side.outermost parts <;> simp [Pin.free]
  | choice members m =>
    rw [derivedPins, pinsOfMembers_on, outermost]
    simp [Pin.ofBranches]

/-- A single occurrence is pinned only where a child is that stands at the side. -/
theorem DerivesOnce.on_eq_false (he : t.DerivesOnce M e)
    (h : ∀ c ∈ t.outermost side, ∀ d, c.Derives M d → d.on side = false) : e.on side = false := by
  cases t with
  | leaf cls m =>
    obtain ⟨c, -, rfl⟩ := derivesOnce_leaf.mp he
    exact Derived.on_char c side
  | sequence parts m =>
    obtain ⟨es, hes, rfl⟩ := derivesOnce_sequence.mp he
    rw [outermost] at h
    rw [Derived.join_on]
    -- The part at the side goes with the derivation at the side.
    have hrel := side.outermost_rel hes
    generalize side.outermost parts = first at h hrel
    generalize side.outermost es = derived at hrel ⊢
    cases hrel with
    | none => rfl
    | some hd => exact h _ (Option.mem_toList.mpr rfl) _ hd
  | choice members m =>
    obtain ⟨c, hmem, hd⟩ := derivesOnce_choice.mp he
    exact h c hmem e hd

/-- Where no branch of a node is pinned, no derivation is. The children at the side are pinned in no
branch either, so this is by induction on the nodes. -/
theorem Derives.on_eq_false (hd : t.Derives M d) (hc : t.Every IsCoherent)
    (hsome : (t.pins.on side).inSome = false) (hall : (t.pins.on side).inAll = false) :
    d.on side = false := by
  induction t using inductChildren generalizing d with
  | node t ih =>
    obtain ⟨hnode, hs⟩ := every_iff.mp hc
    have hderived : (t.derivedPins.on side).inSome = false := by
      by_contra h
      rw [hnode.inSome_of_derived side (Bool.not_eq_false _ ▸ h)] at hsome
      cases hsome
    have honce : ∀ e, t.DerivesOnce M e → e.on side = false := fun e he =>
      he.on_eq_false fun c hmem d hd =>
        ih c (mem_children_of_outermost hmem) hd (hs c (mem_children_of_outermost hmem))
          (derived_inSome_eq_false.mp hderived c hmem) (hnode.inAll_of_derived side hderived c hmem)
    obtain ⟨ds, -, hds, rfl⟩ := hd
    rw [Derived.on_pinned, show (t.mark.pins.on side).inAll = false from hall, Bool.false_or,
      Derived.join_on]
    cases hout : side.outermost ds with
    | none => rfl
    | some e => exact honce e (hds e (Side.mem_of_outermost hout))

end Tree

end Exemplar
