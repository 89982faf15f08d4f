import Exemplar.Proofs.Padding.Separation

/-!
# Completed trees

A completed tree is pinned in every branch at its back. At its front it is as well, unless it has a
node that may be missing, is pinned at the front, and is taken apart at its back: the text that
stands for the missing node is pinned at the front no more. A tree that is pinned at both sides is
complete, and completing it again changes nothing.

## Main definitions

* `Tree.KeepsFront`: the node is not taken apart at its back at the expense of its front

## Main results

* `Tree.inSome_of_pad`: padding keeps what is pinned in some branches
* `Tree.inAll_of_pad`: padding at a side pins all branches there
* `Tree.inAll_front_of_pad`: padding at the back keeps all branches pinned at the front
* `pins_of_completed`: how completed trees are pinned
-/

namespace Exemplar

namespace Tree

variable {side : Side} {t u r : Tree}

theorem pins_rebuilt_on {around : Tree} (h : around.pins = around.derivedPins) (s : Side) :
    (u.rebuilt around).pins.on s = (around.derivedPins.on s).union (u.ownPins.on s) := by
  rw [← h, ← Pins.on_union, ← pins_pinned]
  exact congrArg (Pins.on · s) (pins_withMark _ _)

theorem inAll_pinned {s : Side} (h : (t.pins.on s).inAll = true) (p : Pins) :
    ((t.pinned p).pins.on s).inAll = true := by
  rw [pins_pinned, Pins.on_union, Pin.union, h, Bool.true_or]

/-! ## Pinned in some branches -/

/-- A step of padding keeps what is pinned in some branches, if what is put inside does. -/
theorem PadStep.inSome {inside : Tree → Tree → Prop} {s : Side} (hp : PadStep side inside t r)
    {d : Pins} (hd : t.derivedPins = d) (h : (t.pins.on s).inSome = true)
    (hin : ∀ u v, u.derivedPins = d → (u.pins.on s).inSome = true → inside u v →
      (v.pins.on s).inSome = true) : (r.pins.on s).inSome = true := by
  induction hp with
  | kept => exact h
  | wrapped =>
    rcases side.eq_or_eq_other s with rfl | rfl
    · rw [wrap_on]
      simp [Pin.union, Pin.anchor]
    · rw [wrap_on_other, Pin.union, h, Bool.true_or]
  | opened _ _ _ hin' => exact hin _ _ hd h hin'
  | optional _ _ _ _ ih =>
    have hpresent := ih (by rw [derivedPins_single, hd]) (inSome_single h)
    rw [presentOrAbsent, ofMembers, pins, mark, pinsOfMembers_on, Pin.ofBranches]
    simp [hpresent, Pin.union]

/-- The parts of a sequence that is taken apart are kept or padded. -/
theorem PaddedEnd.forall₂ {parts parts' : List Tree} (h : PaddedEnd side parts parts') :
    List.Forall₂ (fun c c' => c' = c ∨ c.pad side = .ok c') parts parts' := by
  obtain ⟨c, c', rest, hc, rfl, rfl⟩ := h
  exact Side.forall₂_place.mpr ⟨c', rest, rfl, .inr hc, List.forall₂_same.mpr fun _ _ => .inl rfl⟩

/-- What is pinned in a part that stands at a side is pinned there in a sequence that is taken
apart, if padding keeps it in the parts. -/
theorem PaddedEnd.keeps {parts parts' : List Tree} (h : PaddedEnd side parts parts') {s : Side}
    {holds : Pin → Bool} (hfree : holds .free = false)
    (hkeep : ∀ c ∈ parts, ∀ c', c.pad side = .ok c' → holds (c.pins.on s) = true →
      holds (c'.pins.on s) = true) (hp : holds ((pinsOfParts parts).on s) = true) :
    holds ((pinsOfParts parts').on s) = true := by
  have hrel := s.outermost_rel h.forall₂
  rw [pinsOfParts_on] at hp ⊢
  cases hout : s.outermost parts with
  | none =>
    rw [hout, Option.elim_none, hfree] at hp
    cases hp
  | some c =>
    rw [hout] at hp hrel
    cases hout' : s.outermost parts' with
    | none =>
      rw [hout'] at hrel
      cases hrel
    | some c' =>
      rw [hout'] at hrel
      rcases hrel with ⟨rfl | hpad⟩
      · exact hp
      · exact hkeep c (Side.mem_of_outermost hout) c' hpad hp

/-- Padding keeps what is pinned in some branches. A node that is taken apart is pinned by a child,
which keeps it, or by itself. -/
theorem inSome_of_pad {s : Side} (hp : t.pad side = .ok r) (h : (t.pins.on s).inSome = true) :
    (r.pins.on s).inSome = true := by
  have hrebuilt : ∀ {around u : Tree} {d : Pins}, around.pins = around.derivedPins →
      ((d.on s).inSome = true → (around.derivedPins.on s).inSome = true) →
      u.derivedPins = d → (u.pins.on s).inSome = true →
      ((u.rebuilt around).pins.on s).inSome = true := by
    intro around u d haround hkeep hd hu
    rw [pins_rebuilt_on haround, ownPins_on, hd, Pin.union, Pin.diff, hu]
    cases hsome : (d.on s).inSome with
    | true => rw [hkeep hsome, Bool.true_or]
    | false => simp
  induction t generalizing r with
  | leaf cls m => exact (padStep_of_pad hp).inSome rfl h fun _ _ _ _ hin => by cases hin
  | sequence parts m ih =>
    refine (padStep_of_pad hp).inSome rfl h fun u v hd hu hin => ?_
    obtain ⟨parts', hend, rfl⟩ := hin
    exact hrebuilt rfl (hend.keeps rfl fun c hc c' hpad => ih c hc hpad) hd hu
  | choice members m ih =>
    refine (padStep_of_pad hp).inSome rfl h fun u v hd hu hin => ?_
    obtain ⟨members', hmembers, rfl⟩ := hin
    refine hrebuilt rfl ?_ hd hu
    rw [derivedPins, ofMembers, derivedPins, pinsOfMembers_on, pinsOfMembers_on]
    simp only [Pin.ofBranches, List.any_map, List.any_eq_true, Function.comp_apply]
    rintro ⟨b, hb, hsome⟩
    obtain ⟨b', hb', hpad⟩ := exists_right_of_mem hmembers hb
    exact ⟨b', hb', ih b hb hpad hsome⟩

/-! ## Pinned in all branches -/

theorem inAll_ofBranches_iff {members : List Tree} {s : Side} :
    ((pinsOfMembers members).on s).inAll = true ↔
      members ≠ [] ∧ ∀ c ∈ members, (c.pins.on s).inAll = true := by
  rw [pinsOfMembers_on, Pin.ofBranches]
  simp

/-- A step of padding pins all branches at the side, if what is put inside does. -/
theorem PadStep.inAll {inside : Tree → Tree → Prop} (hp : PadStep side inside t r)
    (hin : (t.pins.on side).isPartial = true → ∀ u v, inside u v → (v.pins.on side).inAll = true) :
    (r.pins.on side).inAll = true := by
  induction hp with
  | kept hall => exact hall
  | wrapped =>
    rw [wrap_on]
    simp [Pin.union, Pin.anchor]
  | opened hall hsome _ hin' => exact hin (by simp [Pin.isPartial, hall, hsome]) _ _ hin'
  | @optional t present hall hsome _ _ ih =>
    have hpresent := ih fun _ => hin (by simp [Pin.isPartial, hall, hsome])
    refine inAll_ofBranches_iff.mpr ⟨by simp, fun c hc => ?_⟩
    rcases List.mem_pair.mp hc with rfl | rfl
    · exact inAll_pinned hpresent _
    · rw [absent, pins_pinned, Pins.on_union, Pins.on_union, Pins.on_only]
      simp [Pin.union, Pin.anchor]

/-- Padding at a side pins all branches there. A choice has its branches from its members, so there
is one. -/
theorem inAll_of_pad (h : t.Every IsSeparable) (hp : t.pad side = .ok r) :
    (r.pins.on side).inAll = true := by
  induction t generalizing r with
  | leaf cls m => exact (padStep_of_pad hp).inAll fun _ _ _ hin => nomatch hin
  | sequence parts m ih =>
    refine (padStep_of_pad hp).inAll fun _ u v hin => ?_
    obtain ⟨parts', ⟨c, c', rest, hpad, hparts, rfl⟩, rfl⟩ := hin
    have hc : c ∈ parts := hparts ▸ Side.mem_place.mpr (.inl rfl)
    have hc' := ih c hc ((every_iff.mp h).2 c hc) hpad
    rw [pins_rebuilt_on rfl, ofParts, derivedPins, pinsOfParts_on, Side.outermost_place]
    exact (Bool.or_eq_true _ _).mpr (.inl hc')
  | choice members m ih =>
    refine (padStep_of_pad hp).inAll fun hpartial u v hin => ?_
    obtain ⟨members', hmembers, rfl⟩ := hin
    have hne : members' ≠ [] := by
      rintro rfl
      cases hmembers
      exact (every_iff.mp h).1.children_ne_nil side hpartial rfl
    rw [pins_rebuilt_on rfl]
    refine (Bool.or_eq_true _ _).mpr (.inl (inAll_ofBranches_iff.mpr ⟨hne, fun c' hc' => ?_⟩))
    obtain ⟨c, hc, hpad⟩ := exists_left_of_mem hmembers hc'
    exact ih c hc ((every_iff.mp h).2 c hc) hpad

/-- A node that may be missing and is pinned in all branches at its front is not taken apart at its
back. -/
def KeepsFront (t : Tree) : Prop :=
  t.occurs.least = 0 → t.pins.front.inAll = true → t.pins.back.isPartial = false

instance : DecidablePred KeepsFront := fun t => by unfold KeepsFront; infer_instance

/-- A step of padding at the back keeps all branches pinned at the front, if what is put inside
does. -/
theorem PadStep.inAll_front {inside : Tree → Tree → Prop} (hp : PadStep .back inside t r)
    (hkeeps : t.pins.back.isPartial = true → t.KeepsFront) (h : t.pins.front.inAll = true)
    (hin : ∀ v, inside t v → v.pins.front.inAll = true) : r.pins.front.inAll = true := by
  cases hp with
  | kept => exact h
  | wrapped =>
    change (((t.wrap .back).pins.on Side.back.other).inAll = true)
    rw [wrap_on_other, Pin.union, Bool.or_eq_true]
    exact .inl h
  | opened _ _ _ hin' => exact hin _ hin'
  | optional hall hsome hoccurs _ =>
    have hpartial : t.pins.back.isPartial = true := by
      rw [Pin.isPartial, show t.pins.back.inAll = false from hall,
        show t.pins.back.inSome = true from hsome]
      rfl
    rw [hkeeps hpartial (by rw [hoccurs]; rfl) h] at hpartial
    cases hpartial

/-- Padding at the back keeps all branches pinned at the front. A node that is taken apart is pinned
by a child, which keeps it, or by itself. -/
theorem inAll_front_of_pad (h : t.Every fun u => u.children ≠ [] → u.KeepsFront)
    (hs : t.Every IsSeparable) (hp : t.pad .back = .ok r) (hall : t.pins.front.inAll = true) :
    r.pins.front.inAll = true := by
  have hrebuilt : ∀ {t around : Tree}, around.pins = around.derivedPins →
      ((t.derivedPins.on .front).inAll = true → (around.derivedPins.on .front).inAll = true) →
      t.pins.front.inAll = true → ((t.rebuilt around).pins.on .front).inAll = true := by
    intro t around haround hkeep hall
    rw [pins_rebuilt_on haround, ownPins_on, Pin.union, Pin.diff]
    cases hd : (t.derivedPins.on .front).inAll with
    | true => rw [hkeep hd, Bool.true_or]
    | false => simp [show (t.pins.on .front).inAll = true from hall]
  have hkeeps : ∀ t : Tree, (t.Every fun u => u.children ≠ [] → u.KeepsFront) →
      t.Every IsSeparable → t.pins.back.isPartial = true → t.KeepsFront :=
    fun t h hs hpartial =>
      (every_iff.mp h).1 ((every_iff.mp hs).1.children_ne_nil .back hpartial)
  induction t generalizing r with
  | leaf cls m =>
    exact (padStep_of_pad hp).inAll_front (hkeeps _ h hs) hall fun _ hin => by cases hin
  | sequence parts m ih =>
    refine (padStep_of_pad hp).inAll_front (hkeeps _ h hs) hall fun v hin => ?_
    obtain ⟨parts', hend, rfl⟩ := hin
    exact hrebuilt rfl (hend.keeps (s := .front) rfl fun c hc c' hpad =>
      ih c hc ((every_iff.mp h).2 c hc) ((every_iff.mp hs).2 c hc) hpad) hall
  | choice members m ih =>
    refine (padStep_of_pad hp).inAll_front (hkeeps _ h hs) hall fun v hin => ?_
    obtain ⟨members', hmembers, rfl⟩ := hin
    refine hrebuilt rfl ?_ hall
    rw [derivedPins, ofMembers, derivedPins, inAll_ofBranches_iff, inAll_ofBranches_iff]
    rintro ⟨hne, hmem⟩
    refine ⟨?_, fun c' hc' => ?_⟩
    · rintro rfl
      cases hmembers
      exact hne rfl
    · obtain ⟨c, hc, hpad⟩ := exists_left_of_mem hmembers hc'
      exact ih c hc ((every_iff.mp h).2 c hc) ((every_iff.mp hs).2 c hc) hpad (hmem c hc)

/-! ## Both sides -/

theorem padNode_of_inAll {inside : Tree → Except PaddingError Tree}
    (h : (t.pins.on side).inAll = true) : padNode side t inside = .ok t := by
  simp only [padNode, h, if_true, ite_self]

/-- A tree that is pinned in all branches at a side is not padded there. -/
theorem pad_of_inAll (h : (t.pins.on side).inAll = true) : t.pad side = .ok t := by
  cases t <;> rw [pad] <;> exact padNode_of_inAll h

theorem pinned_of_union {p : Pins} (h : t.pins.union p = t.pins) : t.pinned p = t := by
  cases t <;> simp [Tree.pinned, withMark, mark, pins] at h ⊢ <;> rw [h]

theorem pinned_pinned (t : Tree) (p : Pins) : (t.pinned p).pinned p = t.pinned p :=
  pinned_of_union (by simp [Pins.union, Pin.union])

/-- A tree that is pinned at both sides is complete. -/
theorem completed_of_pinned (options : Options)
    (h : ∀ side, (t.pins.on side).inSome = true ∧ (t.pins.on side).inAll = true) :
    t.completed options = .ok t := by
  unfold completed
  split
  · have hon : ∀ side, (t.pins.on side).union .anchor = t.pins.on side := fun side =>
      Pin.union_anchor (h side).1 (h side).2
    exact congrArg _ (pinned_of_union (congrArg₂ Pins.mk (hon .front) (hon .back)))
  · rw [padBoth, pad_of_inAll (h .front).2]
    exact pad_of_inAll (h .back).2

/-- Where padding fails at no side, the tree is pinned in all branches at its back, and if no node
is taken apart at the expense of its front, at its front too. A tree that is not pinned at its back
is wrapped, as it cannot be kept, and the nodes that are new at the front occur once or have no
children. -/
theorem pins_of_padBoth (hc : t.Every IsConsistent) (h : t.Every IsSeparable)
    (hp : t.padBoth = .ok r) :
    (r.pins.on .front).inSome = true ∧ (r.pins.on .back).inSome = true ∧
      (r.pins.on .back).inAll = true ∧
      (t.Every KeepsFront → (r.pins.on .front).inAll = true) := by
  simp only [padBoth, bind_eq_ok] at hp
  obtain ⟨u, hu, hr⟩ := hp
  have hpadded := padded_of_pad hc hu
  have hs := separable_of_pad hc.coherent h hu
  have hfront := inAll_of_pad h hu
  refine ⟨inSome_of_pad hr (hpadded.inSome_of_inAll .front hfront), ?_, inAll_of_pad hs hr, ?_⟩
  · cases hback : (u.pins.on .back).inSome with
    | true => exact inSome_of_pad hr hback
    | false =>
      have hnone : (u.pins.on .back).inAll = false :=
        eq_false_of_imp (hpadded.inSome_of_inAll .back) hback
      cases padStep_of_pad hr with
      | kept hall =>
        rw [hnone] at hall
        cases hall
      | wrapped => simp [wrap_on, Pin.union, Pin.anchor]
      | opened _ hsome =>
        rw [hback] at hsome
        cases hsome
      | optional _ hsome =>
        rw [hback] at hsome
        cases hsome
  · intro hkeeps
    refine inAll_front_of_pad (every_of_pad ?_ (hkeeps.imp fun _ hu _ _ => hu) hu) hs hr hfront
    rintro v (honce | hnil) hne hleast
    · rw [honce] at hleast
      cases hleast
    · exact absurd hnil hne

end Tree

/-- A completed tree is pinned in every branch at its back, and in some at its front. If no node is
taken apart at the expense of its front, it is pinned in every branch there too, and completing it
again changes nothing. -/
theorem pins_of_completed {options : Options} {pattern : List Char} {t r : Tree}
    (h : Pattern.parse options pattern = .ok t) (hr : t.completed options = .ok r) :
    r.pins.front.inSome = true ∧ r.pins.back.inSome = true ∧ r.pins.back.inAll = true ∧
      ((options.whole = false → t.Every Tree.KeepsFront) →
        r.pins.front.inAll = true ∧ r.completed options = .ok r) := by
  have hbuilt := Pattern.built_of_parse h
  unfold Tree.completed at hr ⊢
  cases hwhole : options.whole with
  | true =>
    simp only [hwhole, if_true] at hr
    obtain rfl := Except.ok.inj hr
    rw [if_pos rfl, Tree.pinned_pinned, Tree.pins_pinned]
    simp [Pins.union, Pins.both, Pin.union, Pin.anchor]
  | false =>
    simp only [hwhole, Bool.false_eq_true, if_false] at hr
    obtain ⟨hfront, hback, hbackAll, hfrontAll⟩ :=
      Tree.pins_of_padBoth hbuilt.consistent hbuilt.separable hr
    refine ⟨hfront, hback, hbackAll, fun hkeeps => ⟨hfrontAll (hkeeps rfl), ?_⟩⟩
    rw [if_neg Bool.false_ne_true, Tree.padBoth, Tree.pad_of_inAll (hfrontAll (hkeeps rfl))]
    exact Tree.pad_of_inAll hbackAll

/-- A pattern with an optional part that is taken apart at the front, and a member that is pinned at
the back only. -/
theorem pins_of_completed_optional :
    ∃ t r, Pattern.parse {} "(^a)?b|c$".toList = .ok t ∧ t.completed {} = .ok r ∧
      t.Every Tree.KeepsFront ∧ r.pins.front.inAll = true ∧ r.completed {} = .ok r := by
  obtain ⟨c, hc, hkeeps⟩ := exists_of_compile
    (show ((compile {} "(^a)?b|c$").toOption.any fun c =>
      decide (c.tree.Every Tree.KeepsFront)) = true by decide +kernel)
  obtain ⟨hparse, hroot, -, -⟩ := of_compile hc
  have hkeeps := of_decide_eq_true hkeeps
  obtain ⟨-, -, -, hrest⟩ := pins_of_completed hparse hroot
  exact ⟨_, _, hparse, hroot, hkeeps, hrest fun _ => hkeeps⟩

/-- A pattern that is pinned in all branches at the front until it is padded at the back: the branch
without the optional part is not pinned any more. -/
theorem exists_completed_front_lost :
    ∃ c, compile {} "^(a$|b)?" = .ok c ∧ c.tree.pins.front.inAll = true ∧
      c.generator.root.pins.front.inAll = false ∧
      c.generator.root.completed {} ≠ .ok c.generator.root := by
  obtain ⟨c, hc, htest⟩ := exists_of_compile
    (show ((compile {} "^(a$|b)?").toOption.any fun c =>
      c.tree.pins.front.inAll && !c.generator.root.pins.front.inAll &&
        (c.generator.root.completed {}).toOption.all (·.size != c.generator.root.size)) = true
      by decide +kernel)
  simp only [Bool.and_eq_true, Bool.not_eq_true'] at htest
  obtain ⟨⟨htree, hroot⟩, hsize⟩ := htest
  refine ⟨c, hc, htree, hroot, fun hagain => ?_⟩
  rw [hagain] at hsize
  simp [Except.toOption] at hsize

end Exemplar
