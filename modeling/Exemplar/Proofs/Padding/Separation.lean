import Exemplar.Proofs.Generator
import Exemplar.Proofs.Padding.Coherence

/-!
# Where padding fails

A node that is pinned in some branches only has to be taken apart when it is padded. This works out
if the node has these branches from its children and occurs at most once. Reading builds no other
nodes and padding adds none, so the only nodes that are pinned in some branches and cannot be taken
apart are those that occur not even once.

## Main definitions

* `Tree.IsSeparable`: what makes it possible to take a node apart

## Main results

* `Tree.every_of_pad`: padding builds nothing but leaves and nodes that occur once
* `Pattern.Built.separable`, `Tree.separable_of_pad`: all nodes are separable, before and after
  padding
* `Tree.of_padBoth_error`: the node at which padding fails
* `compile_cases`: compiling a pattern fails in these ways only
-/

namespace Exemplar

namespace Tree

variable {side : Side} {t u r : Tree} {P : Tree → Prop}

@[simp] theorem occurs_withMark (t : Tree) (m : Mark) : (t.withMark m).occurs = m.occurs := by
  rw [occurs, mark_withMark]

@[simp] theorem occurs_pinned (t : Tree) (p : Pins) : (t.pinned p).occurs = t.occurs := by
  rw [pinned, occurs_withMark, occurs]

@[simp] theorem children_pinned (t : Tree) (p : Pins) : (t.pinned p).children = t.children := by
  rw [pinned, children_withMark]

@[simp] theorem children_padding : padding.children = [] := rfl

/-! ## What padding builds -/

/-- What holds of all nodes that occur once or have no children is kept by a step of padding. -/
theorem PadStep.every {inside : Tree → Tree → Prop} (hp : PadStep side inside t r)
    (hP : ∀ u, u.occurs = .once ∨ u.children = [] → P u) (h : t.Every P)
    (hin : ∀ u v, inside u v → v.occurs = .once ∧ v.Every P) :
    (t.occurs = .once → r.occurs = .once) ∧ r.Every P := by
  have hleaf : ∀ p, (padding.pinned p).Every P := fun p =>
    .node _ (hP _ (.inr (by simp))) (by simp)
  induction hp with
  | kept => exact ⟨id, h⟩
  | @wrapped t _ _ =>
    refine ⟨fun _ => by rw [wrap_eq]; rfl, .node _ (hP _ (.inl (by rw [wrap_eq]; rfl))) ?_⟩
    intro c hc
    rw [wrap_eq, children_pinned] at hc
    rcases Side.mem_place.mp hc with rfl | hc
    · exact hleaf .free
    · rw [List.mem_singleton.mp hc]
      exact h
  | opened _ _ _ hin' => exact ⟨fun _ => (hin _ _ hin').1, (hin _ _ hin').2⟩
  | @optional t present _ _ _ _ ih =>
    obtain ⟨honce, hpresent⟩ := ih (.node _ (hP _ (.inl t.occurs_single))
      (by simpa using (every_iff.mp h).2))
    refine ⟨fun _ => rfl, .node _ (hP _ (.inl rfl)) ?_⟩
    intro c hc
    rcases List.mem_pair.mp hc with rfl | rfl
    · exact hpresent.withMark (hP _ (.inl ((occurs_pinned _ _).trans (honce t.occurs_single))))
    · exact hleaf _

/-- Padding keeps nodes, and what it adds are leaves and nodes that occur once. -/
theorem every_of_pad (hP : ∀ u, u.occurs = .once ∨ u.children = [] → P u) (h : t.Every P)
    (hp : t.pad side = .ok r) : r.Every P := by
  induction t generalizing r with
  | leaf cls m => exact ((padStep_of_pad hp).every hP h fun _ _ hin => nomatch hin).2
  | sequence parts m ih =>
    have hs : ∀ c ∈ parts, c.Every P := (every_iff.mp h).2
    refine ((padStep_of_pad hp).every hP h fun u v hin => ?_).2
    obtain ⟨parts', hend, rfl⟩ := hin
    refine ⟨rfl, .node _ (hP _ (.inl rfl)) fun c hc => ?_⟩
    rcases hend.mem hc with hc | ⟨b, hb, hpad⟩
    · exact hs c hc
    · exact ih b hb (hs b hb) hpad
  | choice members m ih =>
    have hs : ∀ c ∈ members, c.Every P := (every_iff.mp h).2
    refine ((padStep_of_pad hp).every hP h fun u v hin => ?_).2
    obtain ⟨members', hmembers, rfl⟩ := hin
    refine ⟨rfl, .node _ (hP _ (.inl rfl)) fun c hc => ?_⟩
    obtain ⟨b, hb, hpad⟩ := exists_left_of_mem hmembers hc
    exact ih b hb (hs b hb) hpad

/-! ## Nodes that can be taken apart -/

/-- A node that is pinned in some branches only has these from its children, and occurs at most
once. -/
structure IsSeparable (t : Tree) : Prop where
  inSome_derived : ∀ side, (t.pins.on side).isPartial = true →
    (t.derivedPins.on side).inSome = true
  most_le_one : ∀ side, (t.pins.on side).isPartial = true → t.occurs.most ≤ 1

/-- Where pins in all branches or in none are added, only what was partial before is. -/
theorem isPartial_of_union {p q : Pin} (hq : q.isPartial = false)
    (h : (p.union q).isPartial = true) : p.isPartial = true := by
  simp only [Pin.isPartial, Pin.union] at hq h ⊢
  cases hp : p.inSome <;> cases hq' : q.inSome <;> simp_all

/-- What remains of pins when those are taken away that make them partial. -/
theorem isPartial_diff {p q : Pin} (h : p.isPartial = true → q.inSome = true)
    (hq : q.inAll = true → q.inSome = true) : (p.diff q).isPartial = false := by
  simp only [Pin.isPartial, Pin.diff] at h ⊢
  cases hsome : q.inSome with
  | true => simp
  | false =>
    rw [hsome] at h hq
    have hall : q.inAll = false :=
      Bool.eq_false_of_not_eq_true fun hall => absurd (hq hall) Bool.false_ne_true
    simpa [hall] using h

theorem IsSeparable.congr (h : t.IsSeparable) (hpins : u.pins = t.pins)
    (hderived : u.derivedPins = t.derivedPins) (hoccurs : u.occurs = t.occurs) : u.IsSeparable where
  inSome_derived := by rw [hpins, hderived]; exact h.inSome_derived
  most_le_one := by rw [hpins, hoccurs]; exact h.most_le_one

/-- Pins that hold a side in all branches or in none keep a node separable. -/
theorem IsSeparable.pinned (h : t.IsSeparable) {p : Pins}
    (hp : ∀ side, (p.on side).isPartial = false) : (t.pinned p).IsSeparable where
  inSome_derived side hpartial := by
    rw [pins_pinned, Pins.on_union] at hpartial
    rw [derivedPins_pinned]
    exact h.inSome_derived side (isPartial_of_union (hp side) hpartial)
  most_le_one side hpartial := by
    rw [pins_pinned, Pins.on_union] at hpartial
    rw [occurs_pinned]
    exact h.most_le_one side (isPartial_of_union (hp side) hpartial)

theorem Every.separable_pinned (h : t.Every IsSeparable) {p : Pins}
    (hp : ∀ side, (p.on side).isPartial = false) : (t.pinned p).Every IsSeparable :=
  h.withMark ((every_iff.mp h).1.pinned hp)

/-- A node that occurs once and is pinned only as its children pin it. -/
theorem isSeparable_of_derived (hp : t.pins = t.derivedPins) (ho : t.occurs = .once) :
    t.IsSeparable where
  inSome_derived side hpartial := by
    rw [hp, Pin.isPartial, Bool.and_eq_true] at hpartial
    exact hpartial.1
  most_le_one _ _ := by rw [ho]; decide

theorem isPartial_only_anchor (side s : Side) :
    ((Pins.only side .anchor).on s).isPartial = false := by
  cases side <;> cases s <;> rfl

end Tree

/-- A quantifier behind an atom that is pinned somewhere is reduced to one occurrence at most. -/
theorem Pattern.Limited.most_le_one {pins : Pins} {occurs limited : Extent}
    (h : Limited pins occurs limited) {side : Side} (hsome : (pins.on side).inSome = true) :
    limited.most ≤ 1 := by
  cases h with
  | few hfew => exact hfew
  | free _ hnone =>
    rw [hnone side] at hsome
    cases hsome
  | optional => decide
  | once => decide

/-- A quantifier that allows one occurrence at most wherever the atom is pinned. Without pins, there
is nothing to separate. -/
theorem Tree.Every.separable_repeated {atom : Tree} {limited : Extent}
    (h : atom.Every Tree.IsSeparable)
    (hmost : ∀ side, (atom.pins.on side).inSome = true → limited.most ≤ 1) :
    (Pattern.repeated atom limited).Every Tree.IsSeparable := by
  unfold Pattern.repeated
  split
  next hfree =>
    have hpins : (atom.withOccurs limited).pins = .free := by
      rw [Tree.withOccurs, Tree.pins_withMark, hfree.2]
      split <;> rfl
    refine h.withMark ⟨?_, ?_⟩
    all_goals
      intro side hpartial
      rw [← Tree.withOccurs, hpins, Pins.on_free] at hpartial
      cases hpartial
  next =>
    have hsome : ∀ side, (((Tree.ofParts [atom]).withOccurs limited).pins.on side).isPartial →
        (atom.pins.on side).inSome = true := by
      intro side hpartial
      rw [Tree.withOccurs, Tree.pins_withMark, Pin.isPartial, Bool.and_eq_true] at hpartial
      have hpins : (Tree.ofParts [atom]).pins.on side = atom.pins.on side := by
        cases side <;> rfl
      split at hpartial
      · simpa [Pin.loosen, hpins] using hpartial.1
      · simpa [hpins] using hpartial.1
    refine .node _ ⟨fun side hpartial => ?_, fun side hpartial => ?_⟩ ?_
    · rw [Tree.withOccurs, Tree.derivedPins_withMark, Tree.ofParts, Tree.derivedPins,
        Tree.pinsOfParts_on, Side.outermost_singleton]
      exact hsome side hpartial
    · exact hmost side (hsome side hpartial)
    · intro c hc
      obtain rfl : c = atom := List.mem_singleton.mp hc
      exact h

/-- Reading builds separable nodes only. -/
theorem Pattern.Built.separable {t : Tree} (h : Built t) : t.Every Tree.IsSeparable := by
  induction h with
  | ofClass cls =>
    exact .node _ (Tree.isSeparable_of_derived rfl rfl) (by simp [Tree.ofClass, Tree.children])
  | empty =>
    exact .node _ (Tree.isSeparable_of_derived rfl rfl)
      (by simp [Tree.empty, Tree.ofParts, Tree.children])
  | @withSource tree source _ ih =>
    have ht := (Tree.every_iff.mp ih).1
    exact ih.withMark (ht.congr (tree.pins_withMark _) (tree.derivedPins_withMark _)
      (tree.occurs_withMark _))
  | ofParts _ _ ih =>
    refine .node _ (Tree.isSeparable_of_derived rfl rfl) fun c hc => ?_
    obtain ⟨part, hpart, rfl⟩ := List.mem_map.mp hc
    exact ih part hpart
  | ofMembers _ ih => exact .node _ (Tree.isSeparable_of_derived rfl rfl) ih
  | repeated _ _ hlimit ih =>
    exact ih.separable_repeated fun _ hsome => (limited_of_limitRepeat hlimit).most_le_one hsome
  | looked t _ ih =>
    apply ih.separable_pinned
    intro side
    cases side <;> simp only [Term.lookPins, Pins.on] <;> split <;> rfl
  | anchored side _ _ ih => exact ih.separable_pinned (Tree.isPartial_only_anchor side)

namespace Tree

variable {side : Side} {t u r : Tree}

/-- Children that are pinned in all branches make up a node that is pinned in some. -/
theorem IsCoherent.inSome_of_inAll_derived (h : t.IsCoherent) {s : Side}
    (hall : (t.derivedPins.on s).inAll = true) : (t.derivedPins.on s).inSome = true := by
  by_contra hsome
  have hnone := h.inAll_of_derived s (Bool.eq_false_of_not_eq_true hsome)
  cases t with
  | leaf =>
    rw [derivedPins, Pins.on_free] at hall
    cases hall
  | sequence parts m =>
    rw [derivedPins, pinsOfParts_on] at hall
    cases hout : s.outermost parts with
    | none =>
      rw [hout] at hall
      cases hall
    | some c =>
      rw [hout] at hall
      have := hnone c (Option.mem_toList.mpr hout)
      rw [show (c.pins.on s).inAll = true from hall] at this
      cases this
  | choice members m =>
    rw [derivedPins, pinsOfMembers_on] at hall
    cases members with
    | nil => cases hall
    | cons c members =>
      have := hnone c List.mem_cons_self
      rw [inAll_ofBranches hall _ (List.mem_map_of_mem List.mem_cons_self)] at this
      cases this

/-- What is set on a separable node itself holds in all branches or in none. -/
theorem IsSeparable.isPartial_own (h : t.IsSeparable)
    (hd : ∀ s, (t.derivedPins.on s).inAll = true → (t.derivedPins.on s).inSome = true) (s : Side) :
    (t.ownPins.on s).isPartial = false := by
  rw [ownPins_on]
  exact isPartial_diff (h.inSome_derived s) (hd s)

/-- A single occurrence of a separable node. -/
theorem IsSeparable.single (h : t.IsSeparable)
    (hd : ∀ s, (t.derivedPins.on s).inAll = true → (t.derivedPins.on s).inSome = true) :
    t.single.IsSeparable where
  inSome_derived s hpartial := by
    rw [pins_single_on] at hpartial
    rw [derivedPins_single]
    have := isPartial_of_union (h.isPartial_own hd s) hpartial
    rw [Pin.isPartial, Bool.and_eq_true] at this
    exact this.1
  most_le_one _ _ := by rw [occurs_single]; decide

/-- A step of padding leaves a separable node, if the children are. What stands for a missing node
is pinned at the side and where the node is itself. -/
theorem PadStep.separable {inside : Tree → Tree → Prop} (hp : PadStep side inside t r)
    (hd : ∀ s, (t.derivedPins.on s).inAll = true → (t.derivedPins.on s).inSome = true)
    (h : t.Every IsSeparable) (hin : ∀ u v, (∀ s, (u.ownPins.on s).isPartial = false) →
      inside u v → v.Every IsSeparable) : r.Every IsSeparable := by
  have hpadding : padding.Every IsSeparable :=
    .node _ ⟨fun s => by cases s <;> decide, fun s => by cases s <;> decide⟩ (by simp)
  induction hp with
  | kept => exact h
  | @wrapped t _ _ =>
    rw [wrap_eq]
    refine Every.separable_pinned (.node _ (isSeparable_of_derived rfl rfl) fun c hc => ?_)
      (isPartial_only_anchor side)
    rcases Side.mem_place.mp hc with rfl | hc
    · exact hpadding
    · rw [List.mem_singleton.mp hc]
      exact h
  | opened _ _ _ hin' => exact hin _ _ ((every_iff.mp h).1.isPartial_own hd) hin'
  | @optional t present _ _ _ _ ih =>
    have hown := (every_iff.mp h).1.isPartial_own hd
    have htrailing : ∀ s, (Pins.on { back := t.ownPins.back } s).isPartial = false := by
      intro s
      cases s with
      | front => rfl
      | back => exact hown .back
    have hpresent := ih (by simpa using hd)
      (.node _ ((every_iff.mp h).1.single hd) (by simpa using (every_iff.mp h).2))
    refine .node _ (isSeparable_of_derived rfl rfl) fun c hc => ?_
    rcases List.mem_pair.mp hc with rfl | rfl
    · exact hpresent.separable_pinned htrailing
    · refine hpadding.separable_pinned fun s => ?_
      rw [Pins.on_union]
      by_contra hpartial
      have := isPartial_of_union (htrailing s) (Bool.eq_true_of_not_eq_false hpartial)
      rw [isPartial_only_anchor] at this
      cases this

theorem IsSeparable.rebuilt {around : Tree} (hpins : around.pins = around.derivedPins)
    (ho : around.occurs = .once) (hown : ∀ s, (u.ownPins.on s).isPartial = false) :
    (u.rebuilt around).IsSeparable :=
  ((isSeparable_of_derived hpins ho).pinned hown).congr (pins_withMark _ _)
    (derivedPins_withMark _ _) (occurs_withMark _ _)

/-- Padding builds separable nodes from separable ones. -/
theorem separable_of_pad (hc : t.Every IsCoherent) (h : t.Every IsSeparable)
    (hp : t.pad side = .ok r) : r.Every IsSeparable := by
  have hd : ∀ s, (t.derivedPins.on s).inAll = true → (t.derivedPins.on s).inSome = true :=
    fun _ => (every_iff.mp hc).1.inSome_of_inAll_derived
  induction t generalizing r with
  | leaf cls m => exact (padStep_of_pad hp).separable hd h fun _ _ _ hin => nomatch hin
  | sequence parts m ih =>
    have hs : ∀ c ∈ parts, c.Every IsSeparable := (every_iff.mp h).2
    have hcs : ∀ c ∈ parts, c.Every IsCoherent := (every_iff.mp hc).2
    refine (padStep_of_pad hp).separable hd h fun u v hown hin => ?_
    obtain ⟨parts', hend, rfl⟩ := hin
    refine .node _ (.rebuilt rfl rfl hown) fun c hc => ?_
    rcases hend.mem hc with hc | ⟨b, hb, hpad⟩
    · exact hs c hc
    · exact ih b hb (hcs b hb) (hs b hb) hpad
        fun _ => (every_iff.mp (hcs b hb)).1.inSome_of_inAll_derived
  | choice members m ih =>
    have hs : ∀ c ∈ members, c.Every IsSeparable := (every_iff.mp h).2
    have hcs : ∀ c ∈ members, c.Every IsCoherent := (every_iff.mp hc).2
    refine (padStep_of_pad hp).separable hd h fun u v hown hin => ?_
    obtain ⟨members', hmembers, rfl⟩ := hin
    refine .node _ (.rebuilt rfl rfl hown) fun c hc => ?_
    obtain ⟨b, hb, hpad⟩ := exists_left_of_mem hmembers hc
    exact ih b hb (hcs b hb) (hs b hb) hpad
      fun _ => (every_iff.mp (hcs b hb)).1.inSome_of_inAll_derived

/-! ## Errors -/

theorem exists_of_padFirst_error {ts : List Tree} {e : PaddingError}
    (h : padFirst side ts = .error e) : ∃ c ∈ ts, c.pad side = .error e := by
  cases ts with
  | nil => cases h
  | cons c ts => exact ⟨c, List.mem_cons_self, map_eq_error.mp h⟩

/-- Where padding the part at the side fails, it fails in this part. -/
theorem exists_of_padLast_error {ts : List Tree} {e : PaddingError}
    (h : padLast side ts = .error e) : ∃ c ∈ ts, c.pad side = .error e := by
  induction ts with
  | nil => cases h
  | cons a ts ih =>
    cases ts with
    | nil => exact ⟨a, List.mem_cons_self, map_eq_error.mp h⟩
    | cons b ts =>
      obtain ⟨c, hc, he⟩ := ih (map_eq_error.mp h)
      exact ⟨c, List.mem_cons_of_mem _ hc, he⟩

/-- Where padding all members fails, it fails in one of them. -/
theorem exists_of_padAll_error {ts : List Tree} {e : PaddingError}
    (h : padAll side ts = .error e) : ∃ c ∈ ts, c.pad side = .error e := by
  induction ts with
  | nil => cases h
  | cons a ts ih =>
    simp only [padAll, bind_eq_error] at h
    rcases h with h | ⟨_, -, h | ⟨_, -, h⟩⟩
    · exact ⟨a, List.mem_cons_self, h⟩
    · obtain ⟨c, hc, he⟩ := ih h
      exact ⟨c, List.mem_cons_of_mem _ hc, he⟩
    · cases h

/-- A separable node is refused itself only if it occurs not even once. Otherwise its children make
it fail. It occurs at most once then, and neither once nor at most once. -/
theorem of_padNode_error {inside : Tree → Except PaddingError Tree} {e : PaddingError}
    (h : padNode side t inside = .error e) (ht : t.IsSeparable) :
    (t.pins.on side).isPartial = true ∧
      ((t.occurs = .zero ∧ e = .partialRepeat t.describe) ∨ ∃ u, inside u = .error e) := by
  have hpartial : ∀ {p : Pin}, ¬p.inAll = true → ¬(!p.inSome) = true → p.isPartial = true :=
    fun hall hsome => by simpa [Pin.isPartial, hall] using hsome
  have hpadOnce : ∀ u, (if (u.pins.on side).inAll then .ok u
        else if !(u.pins.on side).inSome then .ok (u.wrap side)
        else inside u) = Except.error e →
      (u.pins.on side).isPartial = true ∧ inside u = .error e := by
    intro u h
    split at h
    · cases h
    next hall =>
      split at h
      · cases h
      next hsome => exact ⟨hpartial hall hsome, h⟩
  simp only [padNode] at h
  split at h
  next honce =>
    obtain ⟨hpartial, h⟩ := hpadOnce t h
    exact ⟨hpartial, .inr ⟨t, h⟩⟩
  next hne =>
    split at h
    · cases h
    next hall =>
      split at h
      · cases h
      next hsome =>
        have hpartial := hpartial hall hsome
        refine ⟨hpartial, ?_⟩
        split at h
        next =>
          simp only [bind_eq_error] at h
          rcases h with h | ⟨_, -, h⟩
          · exact .inr ⟨t.single, (hpadOnce t.single h).2⟩
          · cases h
        next hmost =>
          have hle := ht.most_le_one side hpartial
          have hends := t.occurs.least_le_most
          refine .inl ⟨Extent.ext ?_ ?_, (Except.error.inj h).symm⟩
          · exact show t.occurs.least = 0 by omega
          · exact show t.occurs.most = 0 by omega

/-- The node at which padding fails: only some of its branches are pinned, and it occurs not even
once. Of a sequence the outermost part is padded, of a choice every member. -/
theorem of_pad_error {e : PaddingError} (h : t.Every IsSeparable) (hp : t.pad side = .error e) :
    ∃ u, t.HasNode u ∧ u.occurs = .zero ∧ (u.pins.on side).isPartial = true ∧
      e = .partialRepeat u.describe := by
  induction t with
  | leaf cls m =>
    have ht := (every_iff.mp h).1
    rw [pad] at hp
    have := ht.inSome_derived side (of_padNode_error hp ht).1
    rw [derivedPins, Pins.on_free] at this
    cases this
  | sequence parts m ih =>
    obtain ⟨ht, hs⟩ := every_iff.mp h
    rw [pad] at hp
    obtain ⟨hpartial, ⟨hzero, rfl⟩ | ⟨u, hu⟩⟩ := of_padNode_error hp ht
    · exact ⟨_, .top _, hzero, hpartial, rfl⟩
    · have hchild : ∃ c ∈ parts, c.pad side = .error e := by
        cases parts with
        | nil =>
          have := ht.inSome_derived side hpartial
          rw [derivedPins, pinsOfParts_on, Side.outermost_eq_none.mpr rfl] at this
          cases this
        | cons a parts =>
          cases side with
          | front => exact exists_of_padFirst_error (map_eq_error.mp hu)
          | back => exact exists_of_padLast_error (map_eq_error.mp hu)
      obtain ⟨c, hc, he⟩ := hchild
      obtain ⟨v, hv, hrest⟩ := ih c hc (hs c hc) he
      exact ⟨v, .inside hc hv, hrest⟩
  | choice members m ih =>
    obtain ⟨ht, hs⟩ := every_iff.mp h
    rw [pad] at hp
    obtain ⟨hpartial, ⟨hzero, rfl⟩ | ⟨u, hu⟩⟩ := of_padNode_error hp ht
    · exact ⟨_, .top _, hzero, hpartial, rfl⟩
    · obtain ⟨c, hc, he⟩ := exists_of_padAll_error (map_eq_error.mp hu)
      obtain ⟨v, hv, hrest⟩ := ih c hc (hs c hc) he
      exact ⟨v, .inside hc hv, hrest⟩

/-- A separable node that is pinned in some of its branches only has children. -/
theorem IsSeparable.children_ne_nil (h : t.IsSeparable) (side : Side)
    (hpartial : (t.pins.on side).isPartial = true) : t.children ≠ [] := by
  intro hnil
  have hnone : (t.derivedPins.on side).inSome = false := by
    refine derived_inSome_eq_false.mpr fun c hc => ?_
    have := mem_children_of_outermost hc
    rw [hnil] at this
    cases this
  rw [h.inSome_derived side hpartial] at hnone
  cases hnone

/-- Where padding fails at either side, a node of the tree itself is to blame. All nodes with
children that occur not even once have been there before. -/
theorem of_padBoth_error {e : PaddingError} (hc : t.Every IsConsistent) (h : t.Every IsSeparable)
    (hp : t.padBoth = .error e) :
    ∃ u side, t.HasNode u ∧ u.occurs = .zero ∧ (u.pins.on side).isPartial = true ∧
      e = .partialRepeat u.describe := by
  simp only [padBoth, bind_eq_error] at hp
  rcases hp with hp | ⟨r, hr, hp⟩
  · obtain ⟨u, hu, hrest⟩ := of_pad_error h hp
    exact ⟨u, .front, hu, hrest⟩
  · have hs := separable_of_pad hc.coherent h hr
    obtain ⟨u, hu, hzero, hpartial, he⟩ := of_pad_error hs hp
    have hnodes : r.Every fun u => u.children ≠ [] → u.occurs = .zero → t.HasNode u := by
      refine every_of_pad ?_ (every_iff_hasNode.mpr fun u hu _ _ => hu) hr
      rintro u (honce | hnil) hne hzero
      · rw [hzero] at honce
        cases honce
      · exact absurd hnil hne
    have hsep := every_iff_hasNode.mp hs u hu
    exact ⟨u, .back, every_iff_hasNode.mp hnodes u hu (hsep.children_ne_nil .back hpartial) hzero,
      hzero, hpartial, he⟩

end Tree

/-- Compiling a pattern leads to a generator or to an error in the pattern, unless some node of its
tree occurs not even once and is pinned in some of its branches only. -/
theorem compile_cases (options : Options) (pattern : String) :
    (∃ c, compile options pattern = .ok c) ∨ (∃ e, compile options pattern = .error (.pattern e)) ∨
      ∃ t u side, Pattern.parse options pattern.toList = .ok t ∧ options.whole = false ∧
        t.HasNode u ∧ u.occurs = .zero ∧ (u.pins.on side).isPartial = true ∧
        compile options pattern = .error (.padding (.partialRepeat u.describe)) := by
  cases hparse : Pattern.parse options pattern.toList with
  | error e => exact .inr (.inl ⟨e, by simp only [compile, hparse]; rfl⟩)
  | ok t =>
    cases hroot : t.completed options with
    | ok root => exact .inl ⟨_, compile_of_completed hparse hroot⟩
    | error e =>
      have hbuilt := Pattern.built_of_parse hparse
      cases hwhole : options.whole with
      | true => simp [Tree.completed, hwhole] at hroot
      | false =>
        obtain ⟨u, side, hu, hzero, hpartial, rfl⟩ := Tree.of_padBoth_error hbuilt.consistent
          hbuilt.separable (by simpa [Tree.completed, hwhole] using hroot)
        exact .inr (.inr ⟨t, u, side, rfl, rfl, hu, hzero, hpartial,
          compile_of_completed_error hparse hroot⟩)

/-- Such a pattern: an anchor that is repeated no time. -/
theorem compile_anchored_zero :
    compile {} "(^a)\x7b0\x7d" = .error (.padding (.partialRepeat "(^a)\x7b0\x7d")) :=
  compile_eq_error (by decide +kernel)

end Exemplar
