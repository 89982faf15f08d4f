import Exemplar.Proofs.Matching.Realizes
import Exemplar.Proofs.Padding.Regular

/-!
# Where parsed trees are pinned

What a pattern holds at an end of the string can only be matched there. So a part of a sequence must
not be held at a side where another part stands, and what is repeated must not be held at all. The
checks of reading see only the pins of the trees that are put together at the moment. They suffice
because a node is held wherever one of its outermost children is: what is held below a node shows at
the node, or it stands between other parts, which has been checked before.

## Main definitions

* `Tree.inner`: the children of a node that stand behind another one
* `Tree.IsHeld`: a node is held where its children are, and its inner children are not held
* `Tree.IsPinnedOutside`: a node is pinned only where an end of the string may be

## Main results

* `Tree.Every.free`: nothing is held below a node that is not held itself
* `Pattern.Built.held`: reading builds trees that hide no pins
* `Pattern.isPinnedOutside_of_parse`: parsed trees are pinned only where an end of the string may be
-/

namespace Exemplar

namespace Tree

variable {t c u : Tree} {side : Side}

/-- The children of a node that stand behind another one from the side. -/
def inner (side : Side) : Tree → List Tree
  | leaf _ _ | choice _ _ => []
  | sequence parts _ => side.inner parts

@[simp] theorem inner_withMark (t : Tree) (m : Mark) (side : Side) :
    (t.withMark m).inner side = t.inner side := by
  cases t <;> rfl

/-- Seen from a side, a child stands outside or behind another one. -/
theorem mem_outermost_or_inner (side : Side) (h : c ∈ t.children) :
    c ∈ t.outermost side ∨ c ∈ t.inner side := by
  cases t with
  | leaf => cases h
  | sequence parts m => exact (Side.outermost_or_mem_inner h).imp_left Option.mem_toList.mpr
  | choice members m => exact .inl h

/-- The children hold a side by no lookaround just if no outermost one does. -/
theorem derived_byLook_eq_false :
    (t.derivedPins.on side).byLook = false ↔
      ∀ c ∈ t.outermost side, (c.pins.on side).byLook = false := by
  cases t with
  | leaf => simp [derivedPins, outermost, Pin.free]
  | sequence parts m =>
    rw [derivedPins, pinsOfParts_on, outermost]
    cases side.outermost parts <;> simp [Pin.free]
  | choice members m =>
    rw [derivedPins, pinsOfMembers_on, outermost]
    simp [Pin.ofBranches]

/-- A consistent node that is not held in some branches is not held at all. -/
theorem IsConsistent.eq_free (h : t.IsConsistent) (hsome : (t.pins.on side).inSome = false)
    (hlook : (t.pins.on side).byLook = false) : t.pins.on side = .free := by
  rw [← Pin.plain_of_byLook hlook]
  exact Pin.plain_eq_free.mpr ⟨hsome, eq_false_of_imp (h.inSome_of_inAll side) hsome⟩

/-! ## Held nodes -/

/-- A node is held by lookarounds where its children are, its inner children are not held, and its
children are not held at all if it may occur more than once. -/
structure IsHeld (t : Tree) : Prop where
  byLook_of_derived : ∀ side, (t.derivedPins.on side).byLook = true →
    (t.pins.on side).byLook = true
  inner_free : ∀ side, ∀ c ∈ t.inner side, c.pins.on side = .free
  children_free : 1 < t.occurs.most → ∀ c ∈ t.children, c.pins = .free

/-- Another mark that holds no less, and repeats only what is not held. -/
theorem IsHeld.withMark (h : t.IsHeld) {m : Mark}
    (hlook : ∀ side, (t.pins.on side).byLook = true → (m.pins.on side).byLook = true)
    (hmost : 1 < m.occurs.most → ∀ c ∈ t.children, c.pins = .free) : (t.withMark m).IsHeld where
  byLook_of_derived side hd := by
    rw [derivedPins_withMark] at hd
    rw [pins_withMark]
    exact hlook side (h.byLook_of_derived side hd)
  inner_free side := by
    rw [inner_withMark]
    exact h.inner_free side
  children_free := by
    rw [occurs_withMark, children_withMark]
    exact hmost

theorem Every.held_pinned (h : t.Every IsHeld) (p : Pins) : (t.pinned p).Every IsHeld := by
  have ht := (every_iff.mp h).1
  refine h.withMark (ht.withMark (fun side hlook => ?_) ht.children_free)
  rw [Pins.on_union, Pin.union, hlook, Bool.true_or]

theorem Every.held_withOccurs (h : t.Every IsHeld) {occurs : Extent}
    (hmost : 1 < occurs.most → ∀ c ∈ t.children, c.pins = .free) :
    (t.withOccurs occurs).Every IsHeld := by
  refine h.withMark ((every_iff.mp h).1.withMark (fun side hlook => ?_) hmost)
  split
  · simpa [Pin.loosen] using hlook
  · exact hlook

theorem Every.held_ofParts {parts : List Tree}
    (hinner : ∀ side : Side, ∀ c ∈ side.inner parts, c.pins.on side = .free)
    (h : ∀ c ∈ parts, c.Every IsHeld) : (ofParts parts).Every IsHeld :=
  .node _ ⟨fun _ => id, hinner, fun hmost => absurd hmost (Nat.lt_irrefl 1)⟩ h

theorem Every.held_ofMembers {members : List Tree} (h : ∀ c ∈ members, c.Every IsHeld) :
    (ofMembers members).Every IsHeld :=
  .node _ ⟨fun _ => id, fun _ _ hc => absurd hc List.not_mem_nil,
    fun hmost => absurd hmost (Nat.lt_irrefl 1)⟩ h

/-- Nothing is held below a node that is not held itself. A child that is not an inner one would
give its pins to the node. -/
theorem Every.free (hc : t.Every IsConsistent) (hh : t.Every IsHeld) (h : t.pins = .free) :
    t.Every (·.pins = .free) := by
  induction t using inductChildren with
  | node t ih =>
    obtain ⟨hnode, hcs⟩ := every_iff.mp hc
    obtain ⟨hheld, hhs⟩ := every_iff.mp hh
    refine .node t h fun c hmem =>
      ih c hmem (hcs c hmem) (hhs c hmem) (Pins.eq_free_of_on fun side => ?_)
    rcases mem_outermost_or_inner side hmem with hout | hin
    · have hon : t.pins.on side = .free := by rw [h, Pins.on_free]
      have hsome : (t.derivedPins.on side).inSome = false :=
        eq_false_of_imp (hnode.inSome_of_derived side) (by rw [hon]; rfl)
      have hlook : (t.derivedPins.on side).byLook = false :=
        eq_false_of_imp (hheld.byLook_of_derived side) (by rw [hon]; rfl)
      exact (every_iff.mp (hcs c hmem)).1.eq_free (derived_inSome_eq_false.mp hsome c hout)
        (derived_byLook_eq_false.mp hlook c hout)
    · exact hheld.inner_free side c hin

/-- A node is pinned only where an end of the string may be. -/
structure IsPinnedOutside (t : Tree) : Prop where
  /-- What is pinned in all branches is pinned in some. -/
  inSome_of_inAll : ∀ side, (t.pins.on side).inAll = true → (t.pins.on side).inSome = true
  /-- A part of a sequence is neither pinned nor held by a lookaround where another one stands. -/
  inner_free : ∀ side, ∀ c ∈ t.inner side,
    (c.pins.on side).inSome = false ∧ (c.pins.on side).byLook = false
  /-- Nothing is held below a node that may occur more than once. -/
  free_of_repeated : 1 < t.occurs.most → ∀ c ∈ t.children, ∀ u, c.HasNode u → u.pins = .free

/-- Where nothing is hidden, pins stand outside. -/
theorem Every.isPinnedOutside (hc : t.Every IsConsistent) (hh : t.Every IsHeld) :
    t.Every IsPinnedOutside := by
  induction t using inductChildren with
  | node t ih =>
    obtain ⟨hnode, hcs⟩ := every_iff.mp hc
    obtain ⟨hheld, hhs⟩ := every_iff.mp hh
    refine .node t ⟨hnode.inSome_of_inAll, fun side c hin => ?_, fun hmost c hmem => ?_⟩
      fun c hmem => ih c hmem (hcs c hmem) (hhs c hmem)
    · rw [hheld.inner_free side c hin]
      exact ⟨rfl, rfl⟩
    · have hfree := (hcs c hmem).free (hhs c hmem) (hheld.children_free hmost c hmem)
      exact every_iff_hasNode.mp hfree

end Tree

namespace Pattern

open Exemplar.Tree

/-! ## Reading -/

/-- What is repeated is not held. -/
theorem free_of_limited {atom : Tree} {occurs limited : Extent} (h : Built atom)
    (hlimited : Limited atom.pins occurs limited) (hmost : 1 < limited.most) :
    atom.pins = .free := by
  cases hlimited with
  | few hfew => exact absurd hmost (Nat.not_lt.mpr hfew)
  | free hlook hsome =>
    exact Pins.eq_free_of_on fun side =>
      (every_iff.mp h.consistent).1.eq_free (hsome side) (hlook side)
  | optional => exact absurd hmost (Nat.lt_irrefl 1)
  | once => exact absurd hmost (Nat.lt_irrefl 1)

/-- Reading builds trees that hide no pins. The checks look at the parts that are put together,
which show all that is below them, and only an atom that is not held is repeated. -/
theorem Built.held {t : Tree} (h : Built t) : t.Every IsHeld := by
  induction h with
  | ofClass cls =>
    exact .node _ ⟨fun _ => id, fun _ _ hc => absurd hc List.not_mem_nil,
      fun _ _ hc => absurd hc List.not_mem_nil⟩ fun _ hc => absurd hc List.not_mem_nil
  | empty => exact .held_ofParts (fun side _ hc => by cases side <;> cases hc) (by simp)
  | withSource source _ ih =>
    have ht := (every_iff.mp ih).1
    exact ih.withMark (ht.withMark (fun _ => id) ht.children_free)
  | ofParts hplace hparts ih =>
    refine .held_ofParts (fun side c hc => ?_) fun c hc => ?_
    · obtain ⟨hsome, hlook⟩ := inner_of_checkPlacement hplace side c hc
      obtain ⟨part, hpart, rfl⟩ := List.mem_map.mp (Side.mem_of_mem_inner hc)
      exact (every_iff.mp (hparts part hpart).consistent).1.eq_free hsome hlook
    · obtain ⟨part, hpart, rfl⟩ := List.mem_map.mp hc
      exact ih part hpart
  | ofMembers _ ih => exact .held_ofMembers ih
  | @repeated atom occurs limited position hatom hleast hlimit ih =>
    have hone : ∀ side : Side, ∀ c ∈ side.inner [atom], c.pins.on side = .free :=
      fun side c hc => by cases side <;> cases hc
    have hkept : (if atom.occurs = .once ∧ atom.pins = .free then atom
        else .ofParts [atom]).Every IsHeld := by
      split
      · exact ih
      · exact .held_ofParts hone (by simpa using ih)
    refine hkept.held_withOccurs fun hmost => ?_
    have hfree := free_of_limited hatom (limited_of_limitRepeat hlimit) hmost
    have hbelow := hatom.consistent.free ih hfree
    split
    · exact fun c hc => (every_iff.mp ((every_iff.mp hbelow).2 c hc)).1
    · exact fun c hc => List.mem_singleton.mp hc ▸ hfree
  | looked t _ ih => exact ih.held_pinned _
  | anchored side _ _ ih => exact ih.held_pinned _

/-- A node of a parsed tree is pinned only where an end of the string may be. -/
theorem isPinnedOutside_of_parse {options : Options} {pattern : List Char} {tree u : Tree}
    (h : parse options pattern = .ok tree) (hu : tree.HasNode u) : u.IsPinnedOutside := by
  have hbuilt := built_of_parse h
  exact every_iff_hasNode.mp (hbuilt.consistent.isPinnedOutside hbuilt.held) u hu

/-- In `(?:^a|b)(?:c|d){2,}(e$)?` both ends are pinned, and what is repeated stands between them. -/
theorem parse_pinned_around_repeated : ∃ tree u,
    parse {} "(?:^a|b)(?:c|d)\x7b2,\x7d(e$)?".toList = .ok tree ∧ tree.HasNode u ∧
      (∀ side, (tree.pins.on side).inSome = true) ∧ 1 < u.occurs.most ∧ u.children ≠ [] ∧
      tree.IsPinnedOutside ∧ u.IsPinnedOutside := by
  obtain ⟨tree, htree, htest⟩ := exists_ok_of_any
    (show ((parse {} "(?:^a|b)(?:c|d)\x7b2,\x7d(e$)?".toList).toOption.any fun tree =>
      tree.pins.front.inSome && tree.pins.back.inSome && tree.children.any fun u =>
        decide (1 < u.occurs.most) && !u.children.isEmpty) = true by decide +kernel)
  simp only [Bool.and_eq_true, List.any_eq_true, decide_eq_true_iff, Bool.not_eq_true',
    List.isEmpty_eq_false_iff] at htest
  obtain ⟨⟨hfront, hback⟩, u, hu, hmost, hne⟩ := htest
  have hnode : tree.HasNode u := .inside hu (.top u)
  refine ⟨tree, u, htree, hnode, fun side => ?_, hmost, hne,
    isPinnedOutside_of_parse htree (.top tree), isPinnedOutside_of_parse htree hnode⟩
  cases side with
  | front => exact hfront
  | back => exact hback

end Pattern

end Exemplar
