import Mathlib.Data.List.Forall2

/-!
# Lists side by side

Two lists of the same length, whose members are related one by one.
-/

namespace Exemplar

variable {α β : Type} {R S : α → β → Prop} {l : List α} {m : List β}

theorem exists_left_of_mem (h : List.Forall₂ R l m) {b : β} (hb : b ∈ m) : ∃ a ∈ l, R a b := by
  induction h with
  | nil => cases hb
  | cons hab _ ih =>
    rcases List.mem_cons.mp hb with rfl | hb
    · exact ⟨_, List.mem_cons_self, hab⟩
    · obtain ⟨a, ha, hr⟩ := ih hb
      exact ⟨a, List.mem_cons_of_mem _ ha, hr⟩

theorem exists_right_of_mem (h : List.Forall₂ R l m) {a : α} (ha : a ∈ l) : ∃ b ∈ m, R a b :=
  exists_left_of_mem h.flip ha

theorem forall₂_imp_of_mem (h : ∀ a ∈ l, ∀ b, R a b → S a b) (hl : List.Forall₂ R l m) :
    List.Forall₂ S l m := by
  induction hl with
  | nil => exact .nil
  | cons hab _ ih =>
    exact .cons (h _ List.mem_cons_self _ hab) (ih fun a ha => h a (List.mem_cons_of_mem _ ha))

/-- Where each member comes from one of another kind, the whole list does. -/
theorem exists_forall₂_map {γ : Type} {T : α → γ → Prop} {f : γ → β}
    (h : ∀ a ∈ l, ∀ b, R a b → ∃ c, T a c ∧ f c = b) (hl : List.Forall₂ R l m) :
    ∃ n, List.Forall₂ T l n ∧ n.map f = m := by
  induction hl with
  | nil => exact ⟨[], .nil, rfl⟩
  | cons hab _ ih =>
    rw [List.forall_mem_cons] at h
    obtain ⟨c, hc, rfl⟩ := h.1 _ hab
    obtain ⟨n, hn, rfl⟩ := ih h.2
    exact ⟨c :: n, .cons hc hn, rfl⟩

/-- Members at the same place are related. -/
theorem rel_of_getElem? (h : List.Forall₂ R l m) {i : Nat} {a : α} {b : β} (ha : l[i]? = some a)
    (hb : m[i]? = some b) : R a b := by
  induction h generalizing i with
  | nil => simp at ha
  | cons hab _ ih =>
    cases i with
    | zero =>
      simp only [List.getElem?_cons_zero, Option.some.injEq] at ha hb
      exact ha ▸ hb ▸ hab
    | succ i => exact ih (by simpa using ha) (by simpa using hb)

/-- Changing the member at one place keeps the others related. -/
theorem forall₂_modify (h : List.Forall₂ R l m) {f : α → α} {i : Nat}
    (hf : ∀ a b, l[i]? = some a → m[i]? = some b → R a b → R (f a) b) :
    List.Forall₂ R (l.modify i f) m := by
  induction h generalizing i with
  | nil => simp
  | cons hab hlm ih =>
    cases i with
    | zero => exact .cons (hf _ _ rfl rfl hab) hlm
    | succ i => exact .cons hab (ih fun a b ha hb => hf a b (by simpa using ha) (by simpa using hb))

theorem forall₂_replicate {a : α} (h : ∀ b ∈ m, R a b) :
    List.Forall₂ R (List.replicate m.length a) m := by
  induction m with
  | nil => exact .nil
  | cons b m ih =>
    rw [List.forall_mem_cons] at h
    exact .cons h.1 (ih h.2)

end Exemplar
