import Mathlib.Logic.Basic

/-!
# Results

A computation that may fail is taken apart: it has a value when its first step has one and the rest
has one, given that.

## Main definitions

* `Tracks`: where one computation has a value, another one has a related value
-/

namespace Exemplar

variable {ε ε' α β : Type}

/-- A result of two steps is one of the second step on a result of the first. -/
theorem bind_eq_ok {x : Except ε α} {f : α → Except ε β} {b : β} :
    (x >>= f) = .ok b ↔ ∃ a, x = .ok a ∧ f a = .ok b := by
  constructor
  · intro h
    cases x with
    | ok a => exact ⟨a, rfl, h⟩
    | error e => cases h
  · rintro ⟨a, rfl, h⟩
    exact h

theorem map_eq_ok {x : Except ε α} {f : α → β} {b : β} :
    x.map f = .ok b ↔ ∃ a, x = .ok a ∧ f a = b := by
  constructor
  · intro h
    cases x with
    | ok a => exact ⟨a, rfl, Except.ok.inj h⟩
    | error e => cases h
  · rintro ⟨a, rfl, rfl⟩
    rfl

theorem bind_eq_error {x : Except ε α} {f : α → Except ε β} {e : ε} :
    (x >>= f) = .error e ↔ x = .error e ∨ ∃ a, x = .ok a ∧ f a = .error e := by
  cases x <;> simp [bind, Except.bind]

theorem map_eq_error {x : Except ε α} {f : α → β} {e : ε} : x.map f = .error e ↔ x = .error e := by
  cases x <;> simp [Except.map]

theorem mapError_eq_ok {x : Except ε α} {f : ε → ε'} {a : α} :
    x.mapError f = .ok a ↔ x = .ok a := by
  cases x with
  | ok b => exact ⟨fun h => congrArg _ (Except.ok.inj h), fun h => congrArg _ (Except.ok.inj h)⟩
  | error e =>
    constructor
    · intro h
      cases h
    · intro h
      cases h

theorem pure_eq_ok {a b : α} : (pure a : Except ε α) = .ok b ↔ a = b :=
  ⟨Except.ok.inj, congrArg _⟩

theorem throw_eq_ok {e : ε} {a : α} : (throw e : Except ε α) = .ok a ↔ False := by
  constructor
  · intro h
    cases h
  · exact False.elim

/-- A value that passes a test. -/
theorem exists_ok_of_any {x : Except ε α} {test : α → Bool}
    (h : x.toOption.any test = true) : ∃ a, x = .ok a ∧ test a = true := by
  cases x with
  | ok a => exact ⟨a, rfl, h⟩
  | error e => cases h

/-- What comes behind a check is reached when the check is passed. -/
theorem check_eq_ok {γ : Type} {c : Prop} [Decidable c] {e : ε} {x : Except ε α} {a : α} :
    (if c then throw e >>= fun _ : γ => x else x) = .ok a ↔ ¬c ∧ x = .ok a := by
  by_cases hc : c
  · rw [if_pos hc, bind_eq_ok]
    simp [throw_eq_ok, hc]
  · simp [hc]

theorem throw_eq_error {e e' : ε} : (throw e : Except ε α) = .error e' ↔ e = e' :=
  ⟨Except.error.inj, congrArg _⟩

/-- An error is met at a check or behind it. -/
theorem check_eq_error {γ : Type} {c : Prop} [Decidable c] {e e' : ε} {x : Except ε α} :
    (if c then throw e >>= fun _ : γ => x else x) = .error e' ↔
      (c ∧ e = e') ∨ (¬c ∧ x = .error e') := by
  by_cases hc : c
  · rw [if_pos hc, bind_eq_error]
    simp [throw_eq_error, throw_eq_ok, hc]
  · simp [hc]

/-- Discarding a result keeps the errors. -/
theorem discard_eq_error {x : Except ε α} {e : ε} : discard x = .error e ↔ x = .error e := by
  cases x with
  | ok a =>
    constructor
    · intro h
      cases h
    · intro h
      cases h
  | error e' =>
    exact ⟨fun h => congrArg _ (Except.error.inj h), fun h => congrArg _ (Except.error.inj h)⟩

/-! ## Two computations -/

section Tracks

variable {α' β' : Type} {R : α → α' → Prop} {S : β → β' → Prop}

/-- Where the first computation has a value, the second one has a related value. -/
def Tracks (R : α → α' → Prop) (x : Except ε α) (y : Except ε' α') : Prop :=
  ∀ a, x = .ok a → ∃ b, y = .ok b ∧ R a b

theorem tracks_ok {a : α} {b : α'} (h : R a b) :
    Tracks R (.ok a : Except ε α) (.ok b : Except ε' α') := by
  intro a' ha
  exact ⟨b, rfl, Except.ok.inj ha ▸ h⟩

theorem Tracks.bind {x : Except ε α} {y : Except ε' α'} {f : α → Except ε β}
    {g : α' → Except ε' β'} (h : Tracks R x y) (hfg : ∀ a b, R a b → Tracks S (f a) (g b)) :
    Tracks S (x >>= f) (y >>= g) := by
  intro c hc
  obtain ⟨a, ha, hc⟩ := bind_eq_ok.mp hc
  obtain ⟨b, hb, hab⟩ := h a ha
  obtain ⟨d, hd, hcd⟩ := hfg a b hab c hc
  exact ⟨d, bind_eq_ok.mpr ⟨b, hb, hd⟩, hcd⟩

/-- What comes behind checks that are passed together. -/
theorem Tracks.check {γ : Type} {c c' : Prop} [Decidable c] [Decidable c'] {e : ε} {e' : ε'}
    {x : Except ε α} {y : Except ε' α'} (hc : c' → c) (h : Tracks R x y) :
    Tracks R (if c then throw e >>= fun _ : γ => x else x)
      (if c' then throw e' >>= fun _ : γ => y else y) := by
  intro a ha
  obtain ⟨hnot, ha⟩ := check_eq_ok.mp ha
  obtain ⟨b, hb, hab⟩ := h a ha
  exact ⟨b, check_eq_ok.mpr ⟨fun h => hnot (hc h), hb⟩, hab⟩

end Tracks

end Exemplar
