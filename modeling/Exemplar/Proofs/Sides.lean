import Exemplar.Tree.Basic
import Mathlib.Data.List.Forall2

/-!
# Both sides at once

What is said of the front holds of the back in the same way. To say it once, the operations that
tell the sides apart take the side as an argument.

## Main definitions

* `Side.other`: the other side
* `Side.outermost`: the first member of a list, or the last one
* `Side.place`: a list with a member added at a side
* `Side.attach`: text added at a side
* `Side.inner`: a list without the member at a side
* `Pin.plain`, `Pins.plain`: pins but for lookarounds
-/

namespace Exemplar

namespace Side

/-- The other side. -/
def other : Side → Side
  | .front => .back
  | .back => .front

theorem eq_or_eq_other (side s : Side) : s = side ∨ s = side.other := by
  cases side <;> cases s <;> decide

/-- The member of a list that stands at the side. -/
def outermost {α : Type} : Side → List α → Option α
  | .front, l => l.head?
  | .back, l => l.getLast?

/-- The list with `a` added at the side. -/
def place {α : Type} (side : Side) (a : α) (l : List α) : List α :=
  match side with
  | .front => a :: l
  | .back => l ++ [a]

/-- The text with `u` added at the side. -/
def attach {α : Type} (side : Side) (u w : List α) : List α :=
  match side with
  | .front => u ++ w
  | .back => w ++ u

section Outermost

variable {α β : Type} {side : Side} {l : List α} {m : List β}

@[simp] theorem outermost_singleton (side : Side) (a : α) : side.outermost [a] = some a := by
  cases side <;> rfl

theorem outermost_eq_none : side.outermost l = none ↔ l = [] := by
  cases side with
  | front => exact List.head?_eq_none_iff
  | back => exact List.getLast?_eq_none_iff

theorem mem_of_outermost {a : α} (h : side.outermost l = some a) : a ∈ l := by
  cases side with
  | front => exact List.mem_of_head? h
  | back => exact List.mem_of_getLast? h

theorem outermost_map (f : α → β) : side.outermost (l.map f) = (side.outermost l).map f := by
  cases side with
  | front => exact List.head?_map
  | back => exact List.getLast?_map

/-- Outermost members of lists that are related one by one are related. -/
theorem outermost_rel {R : α → β → Prop} (h : List.Forall₂ R l m) :
    Option.Rel R (side.outermost l) (side.outermost m) := by
  cases side with
  | front =>
    cases h with
    | nil => exact .none
    | cons hab _ => exact .some hab
  | back =>
    have hr := List.rel_reverse h
    have hhead : ∀ {l' : List α} {m' : List β}, List.Forall₂ R l' m' →
        Option.Rel R l'.head? m'.head? := by
      intro l' m' h
      cases h with
      | nil => exact .none
      | cons hab _ => exact .some hab
    have := hhead hr
    rwa [List.head?_reverse, List.head?_reverse] at this

@[simp] theorem mem_place {a b : α} : b ∈ side.place a l ↔ b = a ∨ b ∈ l := by
  cases side <;> simp [place, or_comm]

@[simp] theorem outermost_place (side : Side) (a : α) (l : List α) :
    side.outermost (side.place a l) = some a := by
  cases side <;> simp [place, outermost]

/-- Adding a member at one side changes nothing at the other, unless there was none. -/
@[simp] theorem outermost_other_place (side : Side) (a : α) (l : List α) :
    side.other.outermost (side.place a l) = (side.other.outermost l).or (some a) := by
  cases side with
  | front => simp [place, other, outermost, List.getLast?_cons]
  | back => cases l <;> simp [place, other, outermost]

/-- Lists with a member at a side are related by this member and by the others. -/
theorem forall₂_place {R : α → β → Prop} {a : α} :
    List.Forall₂ R (side.place a l) m ↔
      ∃ b m', m = side.place b m' ∧ R a b ∧ List.Forall₂ R l m' := by
  cases side with
  | front =>
    rw [place, List.forall₂_cons_left_iff]
    constructor
    · rintro ⟨b, m', hab, hm, rfl⟩
      exact ⟨b, m', rfl, hab, hm⟩
    · rintro ⟨b, m', rfl, hab, hm⟩
      exact ⟨b, m', hab, hm, rfl⟩
  | back =>
    rw [place, ← List.forall₂_reverse_iff, List.reverse_append, List.reverse_singleton,
      List.singleton_append, List.forall₂_cons_left_iff]
    constructor
    · rintro ⟨b, m', hab, hm, hrev⟩
      refine ⟨b, m'.reverse, ?_, hab, ?_⟩
      · rw [← List.reverse_reverse m, hrev, List.reverse_cons, place]
      · rw [← List.forall₂_reverse_iff, List.reverse_reverse]
        exact hm
    · rintro ⟨b, m', rfl, hab, hm⟩
      exact ⟨b, m'.reverse, hab, List.forall₂_reverse_iff.mpr hm, by simp [place]⟩

end Outermost

section Inner

variable {α : Type} {side : Side} {l : List α} {a b : α}

/-- The list without the member that stands at the side. -/
def inner (side : Side) (l : List α) : List α :=
  match side with
  | .front => l.tail
  | .back => l.dropLast

@[simp] theorem inner_place (side : Side) (a : α) (l : List α) :
    side.inner (side.place a l) = l := by
  cases side <;> simp [place, inner]

theorem mem_of_mem_inner (h : a ∈ side.inner l) : a ∈ l := by
  cases side with
  | front => exact List.mem_of_mem_tail h
  | back => exact List.dropLast_subset l h

/-- Seen from a side, a member stands outermost or behind another one. -/
theorem outermost_or_mem_inner (h : a ∈ l) : side.outermost l = some a ∨ a ∈ side.inner l := by
  cases side with
  | front =>
    cases l with
    | nil => cases h
    | cons b l => exact (List.mem_cons.mp h).imp_left fun hab => congrArg some hab.symm
  | back =>
    rcases l.eq_nil_or_concat with rfl | ⟨l, b, rfl⟩
    · cases h
    · rw [List.concat_eq_append] at h ⊢
      rcases List.mem_append.mp h with h | h
      · exact .inr (by rwa [inner, List.dropLast_concat])
      · exact .inl (by rw [outermost, List.getLast?_concat, List.mem_singleton.mp h])

/-- What is added at one side stands between others from the other side, unless there are none. -/
theorem mem_inner_other_place :
    b ∈ side.other.inner (side.place a l) ↔ l ≠ [] ∧ (b = a ∨ b ∈ side.other.inner l) := by
  cases l with
  | nil => cases side <;> simp [place, inner, other]
  | cons c l => cases side <;> simp [place, inner, other, or_comm]

end Inner

section Attach

variable {α : Type} {side : Side}

@[simp] theorem attach_nil (side : Side) (w : List α) : side.attach [] w = w := by
  cases side <;> simp [attach]

@[simp] theorem attach_nil_right (side : Side) (u : List α) : side.attach u [] = u := by
  cases side <;> simp [attach]

theorem attach_attach (u v w : List α) :
    side.attach u (side.attach v w) = side.attach (side.attach u v) w := by
  cases side <;> simp [attach]

theorem flatten_place (side : Side) (w : List α) (ws : List (List α)) :
    (side.place w ws).flatten = side.attach w ws.flatten := by
  cases side <;> simp [place, attach]

theorem map_place {β : Type} (f : α → β) (side : Side) (a : α) (l : List α) :
    (side.place a l).map f = side.place (f a) (l.map f) := by
  cases side <;> simp [place]

end Attach

end Side

/-! ## Pins -/

namespace Pin

/-- The pin but for lookarounds. -/
def plain (p : Pin) : Pin := { p with byLook := false }

@[simp] theorem union_free (p : Pin) : p.union .free = p := by
  simp [union, free]

theorem union_anchor {p : Pin} (hsome : p.inSome = true) (hall : p.inAll = true) :
    p.union .anchor = p := by
  cases p
  simp_all [union, anchor]

theorem plain_eq_free {p : Pin} : p.plain = .free ↔ p.inSome = false ∧ p.inAll = false := by
  simp [plain, free]

theorem plain_union_eq_free {p q : Pin} :
    (p.union q).plain = .free ↔ p.plain = .free ∧ q.plain = .free := by
  simp only [plain_eq_free, union, Bool.or_eq_false_iff, and_and_and_comm]

theorem plain_diff_eq_free {p : Pin} (h : p.plain = .free) (q : Pin) :
    (p.diff q).plain = .free := by
  rw [plain_eq_free] at h
  simp [plain_eq_free, diff, h]

theorem plain_of_byLook {p : Pin} (h : p.byLook = false) : p.plain = p := by
  rw [plain, ← h]

end Pin

namespace Pins

/-- The pins but for lookarounds. -/
def plain (p : Pins) : Pins := ⟨p.front.plain, p.back.plain⟩

theorem on_plain (p : Pins) (side : Side) : p.plain.on side = (p.on side).plain := by
  cases side <;> rfl

theorem plain_of_byLook {p : Pins} (h : ∀ side, (p.on side).byLook = false) : p.plain = p :=
  congrArg₂ mk (Pin.plain_of_byLook (h .front)) (Pin.plain_of_byLook (h .back))

theorem eq_free_of_on {p : Pins} (h : ∀ side, p.on side = .free) : p = .free :=
  congrArg₂ mk (h .front) (h .back)

@[simp] theorem on_union (p q : Pins) (side : Side) :
    (p.union q).on side = (p.on side).union (q.on side) := by
  cases side <;> rfl

@[simp] theorem on_diff (p q : Pins) (side : Side) :
    (p.diff q).on side = (p.on side).diff (q.on side) := by
  cases side <;> rfl

@[simp] theorem on_loosen (p : Pins) (side : Side) : p.loosen.on side = (p.on side).loosen := by
  cases side <;> rfl

@[simp] theorem on_free (side : Side) : free.on side = .free := by
  cases side <;> rfl

@[simp] theorem on_only (side : Side) (pin : Pin) : (only side pin).on side = pin := by
  cases side <;> rfl

@[simp] theorem on_only_other (side : Side) (pin : Pin) :
    (only side pin).on side.other = .free := by
  cases side <;> rfl

end Pins

namespace Tree

/-- A sequence is pinned at a side as the part is that stands there. -/
theorem pinsOfParts_on (parts : List Tree) (side : Side) :
    (pinsOfParts parts).on side = (side.outermost parts).elim .free (·.pins.on side) := by
  cases side <;> rfl

theorem pinsOfMembers_on (members : List Tree) (side : Side) :
    (pinsOfMembers members).on side = .ofBranches (members.map (·.pins.on side)) := by
  cases side <;> rfl

end Tree

end Exemplar
