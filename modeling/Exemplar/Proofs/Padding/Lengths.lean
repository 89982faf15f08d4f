import Exemplar.Proofs.Counts
import Exemplar.Proofs.Padding.Completion

/-!
# Lengths of padded trees

Padding leaves the least length of a tree as it is. The greatest one stays too where the tree is
pinned in all branches; elsewhere text of any length is added to some branch, and there is no limit
any more. So the lengths of a generator are those of its pattern, but for an upper end that is open
unless the pattern is pinned at both sides.

## Main definitions

* `Extent.OpensTo`: the same extent, but for an upper end that may have been opened
* `Tree.InheritsAll`: a node that occurs once is pinned in all branches where its children are

## Main results

* `Tree.opensTo_of_pad`: padding changes lengths by opening the upper end only
* `Tree.most_eq_unbounded_of_pad`: padding opens the upper end where some branch is not pinned
* `Pattern.Built.inheritsAll`: reading builds nodes that are pinned as their children are
* `length_of_completed`: the lengths of a generator and those of its pattern
-/

namespace Exemplar

namespace Extent

/-- The same extent, but for an upper end that may have been opened. -/
structure OpensTo (e e' : Extent) : Prop where
  least_eq : e'.least = e.least
  most_eq : e'.most = e.most ∨ e'.most = unbounded

theorem OpensTo.refl (e : Extent) : e.OpensTo e := ⟨rfl, .inl rfl⟩

variable {a a' b b' e : Extent} {es es' : List Extent}

theorem OpensTo.add (ha : a.OpensTo a') (hb : b.OpensTo b') : (a.add b).OpensTo (a'.add b') where
  least_eq := by rw [least_add, least_add, ha.least_eq, hb.least_eq]
  most_eq := by
    have := ha.most_eq
    have := hb.most_eq
    simp only [most_add, cappedAdd]
    omega

/-- Where two extents are opened at the top, so is their hull. -/
theorem OpensTo.hull (ha : a.OpensTo a') (hb : b.OpensTo b') :
    (a.hull b).OpensTo (a'.hull b') where
  least_eq := by rw [least_hull, least_hull, ha.least_eq, hb.least_eq]
  most_eq := by
    have := ha.most_eq
    have := hb.most_eq
    have := (a'.hull b').most_le_unbounded
    simp only [most_hull] at this ⊢
    omega

theorem OpensTo.sumAll (h : List.Forall₂ OpensTo es es') :
    (sumAll es).OpensTo (Extent.sumAll es') := by
  induction h with
  | nil => exact .refl _
  | cons he _ ih => exact he.add ih

theorem OpensTo.hullAll (h : List.Forall₂ OpensTo es es') :
    (hullAll es).OpensTo (Extent.hullAll es') := by
  induction h with
  | nil => exact .refl _
  | cons he htail ih =>
    cases htail with
    | nil => exact he
    | cons => exact he.hull ih

/-- A sum is open at the top if one of its members is. -/
theorem most_sumAll_eq_unbounded (he : e ∈ es) (hopen : e.most = unbounded) :
    (sumAll es).most = unbounded := by
  have hle : e.most ≤ (es.map most).sum := List.le_sum_of_mem (List.mem_map_of_mem he)
  rw [most_sumAll]
  omega

/-- A hull is open at the top if one of its members is. This member stands for counts beyond
`unbounded`, and so does the hull. -/
theorem most_hullAll_eq_unbounded (he : e ∈ es) (hopen : e.most = unbounded) :
    (hullAll es).most = unbounded := by
  have hadmits : e.Admits (unbounded + 1) :=
    ⟨by have := e.least_le_most; omega, .inl hopen⟩
  have hbound := (hullAll es).most_le_unbounded
  rcases (admits_hullAll he hadmits).2 with h | h
  · exact h
  · omega

theorem once_mul (e : Extent) : once.mul e = e := by
  have := e.least_le_most
  have := e.most_le_unbounded
  apply ext
  · simp only [least_mul, cappedMul, once]
    omega
  · simp only [most_mul, cappedMul, once]
    omega

end Extent

namespace Tree

variable {side : Side} {t u r : Tree}

/-! ## Lengths of what padding puts together -/

theorem length_of_once (h : t.occurs = .once) : t.length = t.lengthOnce := by
  rw [length_eq_mul, h, Extent.once_mul]

theorem length_withMark (t : Tree) (m : Mark) :
    (t.withMark m).length = m.occurs.mul t.lengthOnce := by
  cases t <;> rfl

@[simp] theorem length_pinned (t : Tree) (p : Pins) : (t.pinned p).length = t.length := by
  rw [pinned, length_withMark, length_eq_mul, occurs]

theorem length_ofParts (parts : List Tree) :
    (ofParts parts).length = .sumAll (parts.map length) := by
  rw [length_of_once rfl, ofParts, lengthOnce, lengths_eq_map]

theorem length_ofMembers (members : List Tree) :
    (ofMembers members).length = .hullAll (members.map length) := by
  rw [length_of_once rfl, ofMembers, lengthOnce, lengths_eq_map]

theorem length_rebuilt (u around : Tree) : (u.rebuilt around).length = around.length := by
  rw [rebuilt, length_withMark, ← occurs, ← length_eq_mul, length_pinned]

theorem length_padding : padding.length = .any := rfl

/-- Text around a tree opens its lengths at the top. -/
theorem opensTo_wrap (side : Side) (t : Tree) :
    t.length.OpensTo (t.wrap side).length ∧ (t.wrap side).length.most = unbounded := by
  have hlength : (t.wrap side).length = .sumAll ((side.place padding [t]).map length) := by
    rw [wrap_eq, length_pinned, length_ofParts]
  have hmost : (t.wrap side).length.most = unbounded := by
    rw [hlength]
    exact Extent.most_sumAll_eq_unbounded
      (List.mem_map_of_mem (Side.mem_place.mpr (.inl rfl))) rfl
  refine ⟨⟨?_, .inr hmost⟩, hmost⟩
  have hbound := t.length.least_le_most.trans t.length.most_le_unbounded
  rw [hlength, Extent.least_sumAll, Side.map_place, Side.map_place, length_padding]
  cases side <;> simpa [Side.place, Extent.any] using hbound

/-- A node that may be missing has no least length, and the text in its place has any. -/
theorem opensTo_presentOrAbsent (h : t.occurs = .optional) (side : Side) (present : Tree) :
    t.length.OpensTo (t.presentOrAbsent side present).length ∧
      (t.presentOrAbsent side present).length.most = unbounded := by
  have hlength : (t.presentOrAbsent side present).length = present.length.hull .any := by
    rw [presentOrAbsent, length_ofMembers, absent, List.map_cons, List.map_singleton,
      length_pinned, length_pinned, length_padding]
    rfl
  have hmost : (t.presentOrAbsent side present).length.most = unbounded := by
    rw [hlength, Extent.most_hull]
    exact Nat.max_eq_right present.length.most_le_unbounded
  refine ⟨⟨?_, .inr hmost⟩, hmost⟩
  rw [hlength, length_eq_mul t, h]
  simp [Extent.any, Extent.optional, cappedMul]

/-! ## Padding -/

/-- A step of padding keeps the least length, and the greatest one unless it opens it. -/
theorem PadStep.opensTo {inside : Tree → Tree → Prop} (hp : PadStep side inside t r)
    (hin : ∀ v, inside t v → t.lengthOnce.OpensTo v.length) : t.length.OpensTo r.length := by
  cases hp with
  | kept => exact .refl _
  | wrapped => exact (t.opensTo_wrap side).1
  | opened _ _ honce hin' =>
    rw [length_of_once honce]
    exact hin r hin'
  | optional _ _ hoccurs _ => exact (opensTo_presentOrAbsent hoccurs side _).1

/-- Padding changes the lengths of a tree by opening the upper end only. -/
theorem opensTo_of_pad (hp : t.pad side = .ok r) : t.length.OpensTo r.length := by
  induction t generalizing r with
  | leaf cls m => exact (padStep_of_pad hp).opensTo fun v hin => by cases hin
  | sequence parts m ih =>
    refine (padStep_of_pad hp).opensTo fun v hin => ?_
    obtain ⟨parts', hend, rfl⟩ := hin
    rw [length_rebuilt, length_ofParts, lengthOnce, lengths_eq_map]
    refine .sumAll (List.forall₂_map_left_iff.mpr (List.forall₂_map_right_iff.mpr ?_))
    refine forall₂_imp_of_mem (fun c hc c' h => ?_) hend.forall₂
    rcases h with rfl | hpad
    · exact .refl _
    · exact ih c hc hpad
  | choice members m ih =>
    refine (padStep_of_pad hp).opensTo fun v hin => ?_
    obtain ⟨members', hmembers, rfl⟩ := hin
    rw [length_rebuilt, length_ofMembers, lengthOnce, lengths_eq_map]
    refine .hullAll (List.forall₂_map_left_iff.mpr (List.forall₂_map_right_iff.mpr ?_))
    exact forall₂_imp_of_mem (fun c hc c' hpad => ih c hc hpad) hmembers

/-- A node that occurs once is pinned in all branches where its children pin it in all. -/
def InheritsAll (t : Tree) : Prop :=
  t.occurs = .once → ∀ side, (t.derivedPins.on side).inAll = true → (t.pins.on side).inAll = true

/-- A step of padding at a side that is not pinned opens the lengths at the top. -/
theorem PadStep.most_eq_unbounded {inside : Tree → Tree → Prop} (hp : PadStep side inside t r)
    (h : (t.pins.on side).inAll = false)
    (hin : (t.pins.on side).isPartial = true → t.occurs = .once →
      ∀ v, inside t v → v.length.most = unbounded) : r.length.most = unbounded := by
  cases hp with
  | kept hall =>
    rw [h] at hall
    cases hall
  | wrapped => exact (t.opensTo_wrap side).2
  | opened _ hsome honce hin' => exact hin (by simp [Pin.isPartial, h, hsome]) honce r hin'
  | optional _ _ hoccurs _ => exact (opensTo_presentOrAbsent hoccurs side _).2

/-- Padding opens the upper end where some branch is not pinned. The children of a node that is
taken apart do not pin it in all branches. -/
theorem most_eq_unbounded_of_pad (hs : t.Every IsSeparable) (hi : t.Every InheritsAll)
    (hp : t.pad side = .ok r) (h : (t.pins.on side).inAll = false) :
    r.length.most = unbounded := by
  have hderived : ∀ {t : Tree}, t.Every InheritsAll → t.occurs = .once →
      (t.pins.on side).inAll = false → (t.derivedPins.on side).inAll = false :=
    fun hi honce h => eq_false_of_imp ((every_iff.mp hi).1 honce side) h
  induction t generalizing r with
  | leaf cls m => exact (padStep_of_pad hp).most_eq_unbounded h fun _ _ v hin => by cases hin
  | sequence parts m ih =>
    refine (padStep_of_pad hp).most_eq_unbounded h fun _ honce v hin => ?_
    obtain ⟨parts', ⟨c, c', rest, hpad, rfl, rfl⟩, rfl⟩ := hin
    have hc : c ∈ side.place c rest := Side.mem_place.mpr (.inl rfl)
    have hfree := hderived hi honce h
    rw [derivedPins, pinsOfParts_on, Side.outermost_place] at hfree
    have hopen := ih c hc ((every_iff.mp hs).2 c hc) ((every_iff.mp hi).2 c hc) hpad hfree
    rw [length_rebuilt, length_ofParts]
    exact Extent.most_sumAll_eq_unbounded
      (List.mem_map_of_mem (Side.mem_place.mpr (.inl rfl))) hopen
  | choice members m ih =>
    refine (padStep_of_pad hp).most_eq_unbounded h fun hpartial honce v hin => ?_
    obtain ⟨members', hmembers, rfl⟩ := hin
    have hne : members ≠ [] := (every_iff.mp hs).1.children_ne_nil side hpartial
    obtain ⟨c, hc, hfree⟩ : ∃ c ∈ members, (c.pins.on side).inAll = false := by
      by_contra hnone
      have hall : ((pinsOfMembers members).on side).inAll = true :=
        inAll_ofBranches_iff.mpr ⟨hne, fun c hc =>
          Bool.eq_true_of_not_eq_false fun hfree => hnone ⟨c, hc, hfree⟩⟩
      have hfree := hderived hi honce h
      rw [derivedPins, hall] at hfree
      cases hfree
    obtain ⟨c', hc', hpad⟩ := exists_right_of_mem hmembers hc
    have hopen := ih c hc ((every_iff.mp hs).2 c hc) ((every_iff.mp hi).2 c hc) hpad hfree
    rw [length_rebuilt, length_ofMembers]
    exact Extent.most_hullAll_eq_unbounded (List.mem_map_of_mem hc') hopen

/-! ## Nodes that reading builds -/

theorem inheritsAll_of_derived (h : t.pins = t.derivedPins) : t.InheritsAll := fun _ side hall => by
  rw [h]
  exact hall

theorem InheritsAll.withMark (h : t.InheritsAll) {m : Mark} (hoccurs : m.occurs = t.occurs)
    (hpins : ∀ side, (t.pins.on side).inAll = true → (m.pins.on side).inAll = true) :
    (t.withMark m).InheritsAll := by
  intro honce side hall
  rw [occurs_withMark, hoccurs] at honce
  rw [derivedPins_withMark] at hall
  rw [pins_withMark]
  exact hpins side (h honce side hall)

theorem Every.inheritsAll_pinned (h : t.Every InheritsAll) (p : Pins) :
    (t.pinned p).Every InheritsAll :=
  h.withMark ((every_iff.mp h).1.withMark rfl fun side hall => by
    rw [Pins.on_union, Pin.union, hall, Bool.true_or])

/-- A node that occurred once keeps its pins when it is given an extent that excludes none. -/
theorem Every.inheritsAll_withOccurs (h : t.Every InheritsAll) (honce : t.occurs = .once)
    (occurs : Extent) : (t.withOccurs occurs).Every InheritsAll := by
  refine h.withMark fun ho side hall => ?_
  rw [occurs_withMark] at ho
  rw [derivedPins_withMark] at hall
  have hpins := (every_iff.mp h).1 honce side hall
  rw [pins_withMark, if_neg (by rw [show occurs = .once from ho]; decide)]
  exact hpins

end Tree

/-- Reading builds nodes that are pinned in all branches where their children are, unless they may
be missing. Around an atom that has a quantifier or pins already, there is a sequence for the new
one. -/
theorem Pattern.Built.inheritsAll {t : Tree} (h : Built t) : t.Every Tree.InheritsAll := by
  induction h with
  | ofClass cls =>
    exact .node _ (Tree.inheritsAll_of_derived rfl) (by simp [Tree.ofClass, Tree.children])
  | empty =>
    exact .node _ (Tree.inheritsAll_of_derived rfl)
      (by simp [Tree.empty, Tree.ofParts, Tree.children])
  | withSource source _ ih =>
    exact ih.withMark ((Tree.every_iff.mp ih).1.withMark rfl fun _ => id)
  | ofParts _ _ ih =>
    refine .node _ (Tree.inheritsAll_of_derived rfl) fun c hc => ?_
    obtain ⟨part, hpart, rfl⟩ := List.mem_map.mp hc
    exact ih part hpart
  | ofMembers _ ih => exact .node _ (Tree.inheritsAll_of_derived rfl) ih
  | @repeated atom occurs limited position _ _ _ ih =>
    unfold Pattern.repeated
    split
    next hfree => exact ih.inheritsAll_withOccurs hfree.1 limited
    next =>
      refine Tree.Every.inheritsAll_withOccurs (.node _ (Tree.inheritsAll_of_derived rfl) ?_)
        rfl limited
      intro c hc
      obtain rfl : c = atom := List.mem_singleton.mp hc
      exact ih
  | looked t _ ih => exact ih.inheritsAll_pinned t.lookPins
  | anchored side _ _ ih => exact ih.inheritsAll_pinned (.only side .anchor)

/-! ## Completed trees -/

/-- Padding at both sides opens the upper end unless the tree is pinned at both sides. What was
opened at the front stays open at the back. -/
theorem Tree.length_of_padBoth {t r : Tree} (hs : t.Every IsSeparable)
    (hi : t.Every InheritsAll) (hp : t.padBoth = .ok r) :
    r.length.least = t.length.least ∧
      r.length.most = if t.pins.isComplete then t.length.most else unbounded := by
  simp only [padBoth, bind_eq_ok] at hp
  obtain ⟨u, hu, hr⟩ := hp
  have hfront := opensTo_of_pad hu
  have hback := opensTo_of_pad hr
  refine ⟨hback.least_eq.trans hfront.least_eq, ?_⟩
  cases hall : (t.pins.on .front).inAll with
  | false =>
    have hopen := most_eq_unbounded_of_pad hs hi hu hall
    rw [if_neg (by simp [Pins.isComplete, show t.pins.front.inAll = false from hall])]
    exact hback.most_eq.elim (·.trans hopen) id
  | true =>
    obtain rfl : t = u := Except.ok.inj ((pad_of_inAll hall).symm.trans hu)
    cases hall' : (t.pins.on .back).inAll with
    | false =>
      rw [if_neg (by simp [Pins.isComplete, show t.pins.back.inAll = false from hall'])]
      exact most_eq_unbounded_of_pad hs hi hr hall'
    | true =>
      obtain rfl : t = r := Except.ok.inj ((pad_of_inAll hall').symm.trans hr)
      rw [if_pos (by
        simp [Pins.isComplete, show t.pins.front.inAll = true from hall,
          show t.pins.back.inAll = true from hall'])]

/-- A pattern that is not matched as a whole gives a generator whose least length is that of the
pattern. Its greatest length is too if the generator is anchored, and otherwise there is no
limit. -/
theorem length_of_completed {options : Options} {pattern : String} {t root : Tree}
    (hwhole : options.whole = false) (h : Pattern.parse options pattern.toList = .ok t)
    (hroot : t.completed options = .ok root) :
    ∃ c, compile options pattern = .ok c ∧ c.tree = t ∧ c.generator.root = root ∧
      root.length.least = t.length.least ∧
      root.length.most = if c.generator.anchored then t.length.most else unbounded := by
  have hbuilt := Pattern.built_of_parse h
  have hp : t.padBoth = .ok root := by simpa [Tree.completed, hwhole] using hroot
  obtain ⟨hleast, hmost⟩ := Tree.length_of_padBoth hbuilt.separable hbuilt.inheritsAll hp
  refine ⟨_, compile_of_completed h hroot, rfl, rfl, hleast, ?_⟩
  simp only [hwhole, Bool.false_or]
  exact hmost

/-- A pattern with an optional part that is pinned at the front and a member that is pinned at the
back only: its strings have at least one character, and there is no limit. -/
theorem length_of_completed_optional :
    ∃ t root, Pattern.parse {} "(^a)?b|c$".toList = .ok t ∧ t.completed {} = .ok root ∧
      t.length.least = 1 ∧ t.length.most = 2 ∧
      root.length.least = 1 ∧ root.length.most = unbounded := by
  obtain ⟨c, hc, htest⟩ := exists_of_compile
    (show ((compile {} "(^a)?b|c$").toOption.any fun c =>
      !c.generator.anchored && (c.tree.length.least == 1 && c.tree.length.most == 2)) = true
      by decide +kernel)
  simp only [Bool.and_eq_true, Bool.not_eq_true', beq_iff_eq] at htest
  obtain ⟨hanchored, hleast, hmost⟩ := htest
  obtain ⟨hparse, hroot, -, -⟩ := of_compile hc
  obtain ⟨c', hc', -, -, hleast', hmost'⟩ := length_of_completed rfl hparse hroot
  obtain rfl : c = c' := Except.ok.inj (hc.symm.trans hc')
  rw [hanchored, if_neg Bool.false_ne_true] at hmost'
  exact ⟨_, _, hparse, hroot, hleast, hmost, hleast'.trans hleast, hmost'⟩

end Exemplar
