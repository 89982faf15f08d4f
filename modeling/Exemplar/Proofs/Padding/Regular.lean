import Exemplar.Proofs.Padding.Completion

/-!
# Regular trees

Whatever a pattern is, the tree that it is compiled into has a certain shape. There is no class
without characters and no choice with less than two members. The parts of a sequence are placed so
that only the first one is pinned at the front and only the last one at the back. And nothing has to
occur without limit.

## Main definitions

* `Tree.IsPlaced`: parts of a sequence that are pinned only where they stand at an end
* `Tree.IsRegular`: what is asked of each node

## Main results

* `Tree.free_of_pad`: padding at a side does not pin the other one
* `regular_of_completed`: completed trees are regular
-/

namespace Exemplar

namespace Tree

variable {side : Side} {t u r : Tree}

/-- No part is pinned at a side where another one stands before it. -/
def IsPlaced (parts : List Tree) : Prop :=
  ∀ side : Side, ∀ t ∈ side.inner parts, (t.pins.on side).plain = .free

/-- The class of a leaf has characters, a choice has at least two members, and the parts of a
sequence are placed. -/
def HasShape : Tree → Prop
  | leaf cls _ => cls ≠ .anyOf ∅
  | sequence parts _ => IsPlaced parts
  | choice members _ => 2 ≤ members.length

/-- A node of the trees that patterns are compiled into. -/
structure IsRegular (t : Tree) : Prop where
  shape : t.HasShape
  least_lt : t.occurs.least < unbounded

theorem hasShape_withMark {m : Mark} : (t.withMark m).HasShape ↔ t.HasShape := by
  cases t <;> rfl

theorem Every.regular_withMark (h : t.Every IsRegular) {m : Mark}
    (hm : m.occurs.least < unbounded) : (t.withMark m).Every IsRegular := by
  have ht := (every_iff.mp h).1
  exact h.withMark ⟨hasShape_withMark.mpr ht.shape, by rwa [occurs_withMark]⟩

theorem Every.regular_pinned (h : t.Every IsRegular) (p : Pins) : (t.pinned p).Every IsRegular :=
  h.regular_withMark (every_iff.mp h).1.least_lt

theorem Every.regular_ofParts {parts : List Tree} (hplaced : IsPlaced parts)
    (h : ∀ t ∈ parts, t.Every IsRegular) : (ofParts parts).Every IsRegular :=
  .node _ ⟨hplaced, show (1 : Nat) < unbounded by decide⟩ h

theorem Every.regular_ofMembers {members : List Tree} (hlength : 2 ≤ members.length)
    (h : ∀ t ∈ members, t.Every IsRegular) : (ofMembers members).Every IsRegular :=
  .node _ ⟨hlength, show (1 : Nat) < unbounded by decide⟩ h

theorem every_regular_padding : padding.Every IsRegular :=
  .node _ ⟨show CharClass.dot ≠ .anyOf ∅ by nofun, by decide⟩ (by simp)

theorem isPlaced_singleton (t : Tree) : IsPlaced [t] := by
  intro side u hu
  cases side <;> cases hu

/-! ## The other side -/

/-- A node that is not pinned has no child there that is. -/
theorem IsCoherent.free_outermost (h : t.IsCoherent) {s : Side}
    (hfree : (t.pins.on s).plain = .free) {c : Tree} (hc : c ∈ t.outermost s) :
    (c.pins.on s).plain = .free := by
  have hderived : (t.derivedPins.on s).inSome = false := by
    by_contra hsome
    have := h.inSome_of_derived s (Bool.eq_true_of_not_eq_false hsome)
    rw [(Pin.plain_eq_free.mp hfree).1] at this
    cases this
  exact Pin.plain_eq_free.mpr
    ⟨derived_inSome_eq_false.mp hderived c hc, h.inAll_of_derived s hderived c hc⟩

/-- What no outermost child pins is not pinned by the children. -/
theorem free_derived {s : Side} (h : ∀ c ∈ t.outermost s, (c.pins.on s).plain = .free) :
    (t.derivedPins.on s).plain = .free := by
  cases t with
  | leaf => rw [derivedPins, Pins.on_free]; rfl
  | sequence parts m =>
    rw [derivedPins, pinsOfParts_on]
    cases hout : s.outermost parts with
    | none => rfl
    | some c => exact h c (Option.mem_toList.mpr hout)
  | choice members m =>
    rw [derivedPins, pinsOfMembers_on]
    change ∀ c ∈ members, _ at h
    simp only [Pin.plain_eq_free] at h
    rw [Pin.plain_eq_free]
    cases members with
    | nil => exact ⟨rfl, rfl⟩
    | cons c members =>
      rw [List.forall_mem_cons] at h
      simp only [Pin.ofBranches, List.map_cons, List.any_cons, List.all_cons, h.1.1, h.1.2,
        Bool.false_or, Bool.false_and, Bool.and_false, and_true, List.any_map, List.any_eq_false]
      intro c hc
      simp [(h.2 c hc).1]

/-- A step of padding does not pin the other side. Where a node is split up, neither of the two
members is pinned there. -/
theorem PadStep.free {inside : Tree → Tree → Prop} (hp : PadStep side inside t r)
    {d : Pins} (hd : t.derivedPins = d) (hfree : (d.on side.other).plain = .free)
    (h : (t.pins.on side.other).plain = .free)
    (hin : ∀ u v, u.derivedPins = d → (u.pins.on side.other).plain = .free → inside u v →
      (v.pins.on side.other).plain = .free) : (r.pins.on side.other).plain = .free := by
  induction hp with
  | kept => exact h
  | wrapped => rwa [wrap_on_other, Pin.union_free]
  | opened _ _ _ hin' => exact hin _ _ hd h hin'
  | @optional t present _ _ _ _ ih =>
    have hown : (t.ownPins.on side.other).plain = .free := by
      rw [ownPins_on]
      exact Pin.plain_diff_eq_free h _
    have htrailing : (Pins.on { back := t.ownPins.back } side.other).plain = .free := by
      cases side with
      | front => exact hown
      | back => rfl
    have hpresent := ih (by rw [derivedPins_single, hd])
      (by rw [pins_single_on, hd]; exact Pin.plain_union_eq_free.mpr ⟨hfree, hown⟩)
    refine free_derived (t := t.presentOrAbsent side present) fun c hc => ?_
    rcases List.mem_pair.mp hc with rfl | rfl
    · rw [pins_pinned, Pins.on_union]
      exact Pin.plain_union_eq_free.mpr ⟨hpresent, htrailing⟩
    · rw [absent, pins_pinned, Pins.on_union, Pins.on_union, Pins.on_only_other]
      refine Pin.plain_union_eq_free.mpr ⟨by cases side <;> rfl, ?_⟩
      exact Pin.plain_union_eq_free.mpr ⟨rfl, htrailing⟩

/-- Padding at a side does not pin the other one. A node that is taken apart is pinned there
neither by its children nor by itself, and the part at the other side is padded only if it is the
only one. -/
theorem free_of_pad (hc : t.Every IsCoherent) (hp : t.pad side = .ok r)
    (h : (t.pins.on side.other).plain = .free) : (r.pins.on side.other).plain = .free := by
  have hrebuilt : ∀ {around u : Tree}, around.pins = around.derivedPins →
      (around.derivedPins.on side.other).plain = .free → (u.pins.on side.other).plain = .free →
      ((u.rebuilt around).pins.on side.other).plain = .free := by
    intro around u haround hfree hu
    rw [pins_rebuilt_on haround, ownPins_on]
    exact Pin.plain_union_eq_free.mpr ⟨hfree, Pin.plain_diff_eq_free hu _⟩
  have hchild : ∀ {t c : Tree}, t.Every IsCoherent → (t.pins.on side.other).plain = .free →
      c ∈ t.outermost side.other → (c.pins.on side.other).plain = .free :=
    fun hc h hmem => (every_iff.mp hc).1.free_outermost h hmem
  induction t generalizing r with
  | leaf cls m =>
    exact (padStep_of_pad hp).free rfl (free_derived fun _ => hchild hc h) h
      fun _ _ _ _ hin => nomatch hin
  | sequence parts m ih =>
    have hs : ∀ c ∈ parts, c.Every IsCoherent := (every_iff.mp hc).2
    refine (padStep_of_pad hp).free rfl (free_derived fun _ => hchild hc h) h
      fun u v _ hu hin => ?_
    obtain ⟨parts', hend, rfl⟩ := hin
    refine hrebuilt rfl (free_derived (t := ofParts parts') fun c' hc' => ?_) hu
    rcases hend.outermost_other with heq | ⟨b, b', hpad, hb, hout, hout'⟩
    · exact hchild hc h (Option.mem_toList.mpr (heq ▸ Option.mem_toList.mp hc'))
    · obtain rfl : b' = c' := Option.some.inj (hout'.symm.trans (Option.mem_toList.mp hc'))
      exact ih b hb (hs b hb) hpad (hchild hc h (Option.mem_toList.mpr hout))
  | choice members m ih =>
    have hs : ∀ c ∈ members, c.Every IsCoherent := (every_iff.mp hc).2
    refine (padStep_of_pad hp).free rfl (free_derived fun _ => hchild hc h) h
      fun u v _ hu hin => ?_
    obtain ⟨members', hmembers, rfl⟩ := hin
    refine hrebuilt rfl (free_derived (t := ofMembers members') fun c' hc' => ?_) hu
    obtain ⟨b, hb, hpad⟩ := exists_left_of_mem hmembers hc'
    exact ih b hb (hs b hb) hpad (hchild hc h hb)

/-! ## Padding -/

/-- Text beside a tree that is not pinned there stands where it may. -/
theorem isPlaced_wrap (hall : (t.pins.on side).inAll = false)
    (hsome : (t.pins.on side).inSome = false) : IsPlaced (side.place padding [t]) := by
  intro s u hu
  rcases side.eq_or_eq_other s with rfl | rfl
  · rw [Side.inner_place, List.mem_singleton] at hu
    rw [hu]
    exact Pin.plain_eq_free.mpr ⟨hsome, hall⟩
  · rcases (Side.mem_inner_other_place.mp hu).2 with rfl | hu
    · cases side <;> rfl
    · cases side <;> cases hu

/-- Padding the part at the end leaves the parts where they may stand. -/
theorem PaddedEnd.isPlaced {parts parts' : List Tree} (h : PaddedEnd side parts parts')
    (hc : ∀ c ∈ parts, c.Every IsCoherent) (hplaced : IsPlaced parts) : IsPlaced parts' := by
  obtain ⟨c, c', rest, hpad, rfl, rfl⟩ := h
  intro s u hu
  rcases side.eq_or_eq_other s with rfl | rfl
  · rw [Side.inner_place] at hu
    exact hplaced _ u (by rwa [Side.inner_place])
  · obtain ⟨hne, rfl | hu⟩ := Side.mem_inner_other_place.mp hu
    · exact free_of_pad (hc c (Side.mem_place.mpr (.inl rfl))) hpad
        (hplaced _ c (Side.mem_inner_other_place.mpr ⟨hne, .inl rfl⟩))
    · exact hplaced _ u (Side.mem_inner_other_place.mpr ⟨hne, .inr hu⟩)

/-- A step of padding leaves a regular node regular, if what is put inside is. -/
theorem PadStep.regular {inside : Tree → Tree → Prop} (hp : PadStep side inside t r)
    (h : t.Every IsRegular) (hin : ∀ u v, inside u v → v.Every IsRegular) : r.Every IsRegular := by
  induction hp with
  | kept => exact h
  | wrapped hall hsome =>
    rw [wrap_eq]
    refine (Every.regular_ofParts (isPlaced_wrap hall hsome) fun c hc => ?_).regular_pinned _
    rcases Side.mem_place.mp hc with rfl | hc
    · exact every_regular_padding
    · rw [List.mem_singleton.mp hc]
      exact h
  | opened _ _ _ hin' => exact hin _ _ hin'
  | @optional t present _ _ _ _ ih =>
    have hsingle : t.single.Every IsRegular := by
      obtain ⟨ht, hs⟩ := every_iff.mp h
      refine .node _ ⟨?_, by rw [occurs_single]; decide⟩ (by simpa using hs)
      cases t <;> exact ht.shape
    refine .regular_ofMembers (Nat.le_refl 2) fun c hc => ?_
    rcases List.mem_pair.mp hc with rfl | rfl
    · exact (ih hsingle).regular_pinned _
    · exact every_regular_padding.regular_pinned _

theorem Every.regular_rebuilt {around : Tree} (h : around.Every IsRegular) (u : Tree) :
    (u.rebuilt around).Every IsRegular :=
  (h.regular_pinned _).regular_withMark (every_iff.mp (h.regular_pinned _)).1.least_lt

/-- Padding builds regular trees from regular ones. -/
theorem regular_of_pad (hc : t.Every IsCoherent) (h : t.Every IsRegular)
    (hp : t.pad side = .ok r) : r.Every IsRegular := by
  induction t generalizing r with
  | leaf cls m => exact (padStep_of_pad hp).regular h fun _ _ hin => nomatch hin
  | sequence parts m ih =>
    obtain ⟨ht, hs⟩ := every_iff.mp h
    have hcs : ∀ c ∈ parts, c.Every IsCoherent := (every_iff.mp hc).2
    refine (padStep_of_pad hp).regular h fun u v hin => ?_
    obtain ⟨parts', hend, rfl⟩ := hin
    refine (Every.regular_ofParts (hend.isPlaced hcs ht.shape) fun c hc => ?_).regular_rebuilt u
    rcases hend.mem hc with hc | ⟨b, hb, hpad⟩
    · exact hs c hc
    · exact ih b hb (hcs b hb) (hs b hb) hpad
  | choice members m ih =>
    obtain ⟨ht, hs⟩ := every_iff.mp h
    have hcs : ∀ c ∈ members, c.Every IsCoherent := (every_iff.mp hc).2
    refine (padStep_of_pad hp).regular h fun u v hin => ?_
    obtain ⟨members', hmembers, rfl⟩ := hin
    have hlength : 2 ≤ members'.length := hmembers.length_eq ▸ ht.shape
    refine (Every.regular_ofMembers hlength fun c hc => ?_).regular_rebuilt u
    obtain ⟨b, hb, hpad⟩ := exists_left_of_mem hmembers hc
    exact ih b hb (hcs b hb) (hs b hb) hpad

end Tree

/-! ## Patterns -/

namespace Pattern

/-- Parts that pass the checks are not held where another one stands. What has something before it
is not held at the front. -/
theorem inner_of_checkPlacement {parts : List (Nat × Tree)}
    (h : checkPlacement true parts = .ok ()) (side : Side) :
    ∀ t ∈ side.inner (parts.map Prod.snd),
      (t.pins.on side).inSome = false ∧ (t.pins.on side).byLook = false := by
  have hbehind : ∀ parts' : List (Nat × Tree), checkPlacement false parts' = .ok () →
      ∀ part ∈ parts', part.2.pins.front.inSome = false ∧ part.2.pins.front.byLook = false := by
    intro parts' h
    induction parts' with
    | nil => simp
    | cons part rest ih =>
      obtain ⟨hfront, -, hrest⟩ := of_checkPlacement h
      exact List.forall_mem_cons.mpr ⟨hfront rfl, ih hrest⟩
  have hbefore : ∀ (first : Bool) (parts' : List (Nat × Tree)),
      checkPlacement first parts' = .ok () → ∀ part ∈ parts'.dropLast,
        part.2.pins.back.inSome = false ∧ part.2.pins.back.byLook = false := by
    intro first parts' h
    induction parts' generalizing first with
    | nil => simp
    | cons part rest ih =>
      obtain ⟨-, hback, hrest⟩ := of_checkPlacement h
      cases rest with
      | nil => simp
      | cons part' rest =>
        exact List.forall_mem_cons.mpr ⟨hback (by simp), ih false hrest⟩
  intro t ht
  cases side with
  | front =>
    cases parts with
    | nil => cases ht
    | cons part rest =>
      obtain ⟨part', hpart, rfl⟩ := List.mem_map.mp (show t ∈ rest.map Prod.snd from ht)
      exact hbehind rest (of_checkPlacement h).2.2 part' hpart
  | back =>
    rw [Side.inner, ← List.map_dropLast] at ht
    obtain ⟨part, hpart, rfl⟩ := List.mem_map.mp ht
    exact hbefore true parts h part hpart

/-- Parts that pass the checks are placed. -/
theorem isPlaced_of_checkPlacement {parts : List (Nat × Tree)}
    (h : checkPlacement true parts = .ok ())
    (hc : ∀ part ∈ parts, part.2.IsConsistent) : Tree.IsPlaced (parts.map Prod.snd) := by
  intro side t ht
  have hsome := (inner_of_checkPlacement h side t ht).1
  obtain ⟨part, hpart, rfl⟩ := List.mem_map.mp (Side.mem_of_mem_inner ht)
  exact Pin.plain_eq_free.mpr
    ⟨hsome, Tree.eq_false_of_imp ((hc part hpart).inSome_of_inAll side) hsome⟩

theorem least_lt_of_limited {pins : Pins} {occurs limited : Extent}
    (h : Limited pins occurs limited) (hoccurs : occurs.least < unbounded) :
    limited.least < unbounded := by
  cases h with
  | few => exact hoccurs
  | free => exact hoccurs
  | optional => decide
  | once => decide

/-- The tree of a pattern is regular. -/
theorem regular_of_parse {options : Options} {pattern : List Char} {t : Tree}
    (h : parse options pattern = .ok t) : t.Every Tree.IsRegular := by
  have hclosed : Closed (· ≠ .anyOf ∅) (options.whole = false)
      fun t => Built t ∧ t.Every Tree.IsRegular :=
    { ofClass := fun h => ⟨.ofClass _,
        .node _ ⟨h, show (1 : Nat) < unbounded by decide⟩ (by simp [Tree.ofClass, Tree.children])⟩
      empty := ⟨.empty, .regular_ofParts (fun side _ h => by cases side <;> cases h) nofun⟩
      withSource := fun source h => ⟨h.1.withSource source,
        h.2.regular_withMark (Tree.every_iff.mp h.2).1.least_lt⟩
      ofParts := fun hplace h => ⟨.ofParts hplace fun part hpart => (h part hpart).1,
        .regular_ofParts (isPlaced_of_checkPlacement hplace fun part hpart =>
          (Tree.every_iff.mp (h part hpart).1.consistent).1) fun t ht => by
            obtain ⟨part, hpart, rfl⟩ := List.mem_map.mp ht
            exact (h part hpart).2⟩
      ofMembers := fun hlength h => ⟨.ofMembers fun t ht => (h t ht).1,
        .regular_ofMembers hlength fun t ht => (h t ht).2⟩
      repeated := fun {atom _ _ _} h hleast hlimit => by
        refine ⟨h.1.repeated hleast hlimit, Tree.Every.regular_withMark ?_
          (least_lt_of_limited (limited_of_limitRepeat hlimit) hleast)⟩
        split
        · exact h.2
        · exact .regular_ofParts (Tree.isPlaced_singleton atom) (by simpa using h.2)
      looked := fun t _ h => ⟨h.1.looked t, h.2.regular_pinned _⟩
      anchored := fun side h hlook => ⟨h.1.anchored side hlook, h.2.regular_pinned _⟩ }
  exact (hclosed.of_parse h).2

end Pattern

/-- Completed trees are regular. -/
theorem regular_of_completed {options : Options} {pattern : List Char} {t r : Tree}
    (h : Pattern.parse options pattern = .ok t) (hr : t.completed options = .ok r) :
    r.Every Tree.IsRegular := by
  have hregular := Pattern.regular_of_parse h
  have hconsistent := (Pattern.built_of_parse h).consistent
  unfold Tree.completed at hr
  split at hr
  · obtain rfl := Except.ok.inj hr
    exact hregular.regular_pinned _
  · simp only [Tree.padBoth, bind_eq_ok] at hr
    obtain ⟨u, hu, hr⟩ := hr
    exact Tree.regular_of_pad (Tree.padded_of_pad hconsistent hu).coherent
      (Tree.regular_of_pad hconsistent.coherent hregular hu) hr

end Exemplar
