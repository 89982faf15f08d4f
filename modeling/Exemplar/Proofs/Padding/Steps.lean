import Exemplar.Tree.Padding
import Exemplar.Proofs.Nodes
import Exemplar.Proofs.Results
import Exemplar.Proofs.Sides

/-!
# What padding does

A node is kept when it is pinned at the side, and text is added to it when it is not. Otherwise its
children are padded, after a node that may be missing has been made a choice between a single
occurrence and text alone.

## Main definitions

* `Tree.PadStep`: what becomes of a node, given what becomes of its children

## Main results

* `Tree.padStep_of_pad`: padding a tree takes one of these steps
-/

namespace Exemplar.Tree

/-- The part of the text at an end of the string that stands for a node which is missing, pinned as
the node itself is pinned at its back. -/
def absent (side : Side) (t : Tree) : Tree :=
  padding.pinned ((Pins.only side .anchor).union { back := t.ownPins.back })

/-- The choice between an occurrence of a node, which is padded already, and none. -/
def presentOrAbsent (side : Side) (t present : Tree) : Tree :=
  ofMembers [present.pinned { back := t.ownPins.back }, t.absent side]

/-- What becomes of a node that is padded, where `inside` tells what becomes of a node that has to
be taken apart. -/
inductive PadStep (side : Side) (inside : Tree → Tree → Prop) : Tree → Tree → Prop where
  | kept {t : Tree} : (t.pins.on side).inAll = true → PadStep side inside t t
  | wrapped {t : Tree} : (t.pins.on side).inAll = false → (t.pins.on side).inSome = false →
    PadStep side inside t (t.wrap side)
  | opened {t r : Tree} : (t.pins.on side).inAll = false → (t.pins.on side).inSome = true →
    t.occurs = .once → inside t r → PadStep side inside t r
  | optional {t present : Tree} : (t.pins.on side).inAll = false →
    (t.pins.on side).inSome = true → t.occurs = .optional → PadStep side inside t.single present →
    PadStep side inside t (t.presentOrAbsent side present)

variable {side : Side} {t r : Tree}

theorem wrap_eq (side : Side) (t : Tree) :
    t.wrap side = (ofParts (side.place padding [t])).pinned (.only side .anchor) := by
  cases side <;> rfl

theorem eq_optional {occurs : Extent} (hne : occurs ≠ .once) (hm : occurs.most = 1) :
    occurs = .optional := by
  have hle := occurs.least_le_most
  rcases Nat.eq_zero_or_pos occurs.least with h | h
  · exact Extent.ext h hm
  · exact absurd (Extent.ext (a := occurs) (b := .once) (show occurs.least = 1 by omega) hm) hne

@[simp] theorem occurs_single (t : Tree) : t.single.occurs = .once := by
  cases t <;> rfl

@[simp] theorem children_single (t : Tree) : t.single.children = t.children := by
  cases t <;> rfl

/-- What padding does to a node takes one of these steps. Only a node that may be missing is taken
apart; any other repetition is refused. -/
theorem padStep_of_padNode {inside : Tree → Except PaddingError Tree}
    (h : padNode side t inside = .ok r) : PadStep side (fun u v => inside u = .ok v) t r := by
  have hpadOnce : ∀ u v, u.occurs = .once →
      (if (u.pins.on side).inAll then .ok u
        else if !(u.pins.on side).inSome then .ok (u.wrap side)
        else inside u) = Except.ok v → PadStep side (fun u v => inside u = .ok v) u v := by
    intro u v honce h
    split at h
    next hall =>
      obtain rfl := Except.ok.inj h
      exact .kept hall
    next hall =>
      rw [Bool.not_eq_true] at hall
      split at h
      next hsome =>
        obtain rfl := Except.ok.inj h
        exact .wrapped hall (by simpa using hsome)
      next hsome => exact .opened hall (by simpa using hsome) honce h
  simp only [padNode] at h
  split at h
  next honce => exact hpadOnce t r honce h
  next hne =>
    split at h
    next hall =>
      obtain rfl := Except.ok.inj h
      exact .kept hall
    next hall =>
      rw [Bool.not_eq_true] at hall
      split at h
      next hsome =>
        obtain rfl := Except.ok.inj h
        exact .wrapped hall (by simpa using hsome)
      next hsome =>
        split at h
        next hmost =>
          simp only [bind_eq_ok, pure_eq_ok] at h
          obtain ⟨present, hpresent, rfl⟩ := h
          exact .optional hall (by simpa using hsome) (eq_optional hne hmost)
            (hpadOnce t.single present t.occurs_single hpresent)
        · cases h

/-! ## Children -/

/-- What becomes of a sequence that is taken apart: the part at the side is padded. -/
def PaddedEnd (side : Side) (parts parts' : List Tree) : Prop :=
  ∃ c c' rest, c.pad side = .ok c' ∧ parts = side.place c rest ∧ parts' = side.place c' rest

theorem paddedEnd_of_padFirst {ts us : List Tree} (hne : ts ≠ [])
    (h : padFirst .front ts = .ok us) : PaddedEnd .front ts us := by
  cases ts with
  | nil => exact absurd rfl hne
  | cons c rest =>
    rw [padFirst, map_eq_ok] at h
    obtain ⟨c', hc, rfl⟩ := h
    exact ⟨c, c', rest, hc, rfl, rfl⟩

/-- Padding the last part leaves the others as they are. -/
theorem paddedEnd_of_padLast {ts us : List Tree} (hne : ts ≠ [])
    (h : padLast .back ts = .ok us) : PaddedEnd .back ts us := by
  induction ts generalizing us with
  | nil => exact absurd rfl hne
  | cons a ts ih =>
    cases ts with
    | nil =>
      rw [padLast, map_eq_ok] at h
      obtain ⟨c', hc, rfl⟩ := h
      exact ⟨a, c', [], hc, rfl, rfl⟩
    | cons b ts =>
      rw [padLast, map_eq_ok] at h
      obtain ⟨vs, hvs, rfl⟩ := h
      obtain ⟨c, c', rest, hc, hts, rfl⟩ := ih (List.cons_ne_nil b ts) hvs
      exact ⟨c, c', a :: rest, hc, by rw [hts]; rfl, rfl⟩

theorem PaddedEnd.mem {parts parts' : List Tree} (h : PaddedEnd side parts parts') {u : Tree}
    (hu : u ∈ parts') : u ∈ parts ∨ ∃ c ∈ parts, c.pad side = .ok u := by
  obtain ⟨c, c', rest, hc, rfl, rfl⟩ := h
  rcases Side.mem_place.mp hu with rfl | hu
  · exact .inr ⟨c, Side.mem_place.mpr (.inl rfl), hc⟩
  · exact .inl (Side.mem_place.mpr (.inr hu))

/-- Padding all members pads them one by one. -/
theorem of_padAll {ts us : List Tree} (h : padAll side ts = .ok us) :
    List.Forall₂ (fun t u => t.pad side = .ok u) ts us := by
  induction ts generalizing us with
  | nil =>
    obtain rfl := Except.ok.inj h
    exact .nil
  | cons t ts ih =>
    simp only [padAll, bind_eq_ok, pure_eq_ok] at h
    obtain ⟨u, hu, us, hus, rfl⟩ := h
    exact .cons hu (ih hus)

/-- What becomes of a node that is taken apart: its children at the side are padded, and it keeps
the pins set on it. -/
def padInside (side : Side) : Tree → Tree → Tree → Prop
  | leaf _ _, _, _ => False
  | sequence parts _, u, r => ∃ parts', PaddedEnd side parts parts' ∧ r = u.rebuilt (ofParts parts')
  | choice members _, u, r => ∃ members',
    List.Forall₂ (fun t t' => t.pad side = .ok t') members members' ∧
      r = u.rebuilt (ofMembers members')

theorem PadStep.mono {inside inside' : Tree → Tree → Prop}
    (h : ∀ u v, inside u v → inside' u v) (hp : PadStep side inside t r) :
    PadStep side inside' t r := by
  induction hp with
  | kept hall => exact .kept hall
  | wrapped hall hsome => exact .wrapped hall hsome
  | opened hall hsome honce hin => exact .opened hall hsome honce (h _ _ hin)
  | optional hall hsome hoccurs _ ih => exact .optional hall hsome hoccurs ih

/-- Padding a tree takes one step at its topmost node and pads the children. Of a sequence only the
part at the side is padded, and there is one. -/
theorem padStep_of_pad (h : t.pad side = .ok r) : PadStep side (padInside side t) t r := by
  cases t with
  | leaf cls m =>
    rw [pad] at h
    exact (padStep_of_padNode h).mono fun _ _ h => nomatch h
  | sequence parts m =>
    rw [pad] at h
    apply (padStep_of_padNode h).mono
    intro u v h
    cases parts with
    | nil => cases side <;> cases h
    | cons a parts =>
      cases side with
      | front =>
        obtain ⟨us, hus, rfl⟩ := map_eq_ok.mp h
        exact ⟨us, paddedEnd_of_padFirst (List.cons_ne_nil a parts) hus, rfl⟩
      | back =>
        obtain ⟨us, hus, rfl⟩ := map_eq_ok.mp h
        exact ⟨us, paddedEnd_of_padLast (List.cons_ne_nil a parts) hus, rfl⟩
  | choice members m =>
    rw [pad] at h
    apply (padStep_of_padNode h).mono
    intro u v h
    rw [map_eq_ok] at h
    obtain ⟨us, hus, rfl⟩ := h
    exact ⟨us, of_padAll hus, rfl⟩

end Exemplar.Tree
