import Exemplar.Emission.Basic
import Mathlib.Data.List.Forall2
import Mathlib.Data.List.Perm.Basic

/-!
# Outcomes of emissions

An emission is seen through its outcomes: what holds whatever the source answers, and what some
answers lead to. The first is a rule for each way to put emissions together. For the second there
is one source that follows prescribed answers as far as they are allowed, and the answers of the
parts of an emission are joined to those of the whole.

## Main definitions

* `Emission.Ensures`: what holds of the values and of the failures of an emission
* `Emission.CanFail`: the emission fails with the error in some state of the source
* `RandomSource.prescribed`: the source that follows prescribed answers
* `Emission.CanYield`: with some prescribed answers the emission yields the value

## Main results

* `Emission.Ensures.bind`, `Emission.Ensures.mapM`, `ensures_firstOf`: the rules for all outcomes
* `Emission.CanFail.of_bind`, `Emission.CanFail.of_mapM`, `Emission.CanFail.of_firstOf`: where a
  failure comes from
* `Emission.CanYield.bind`, `Emission.CanYield.mapM`, `canYield_firstOf`: the rules for some outcome
-/

namespace Exemplar

namespace Emission

variable {σ α β : Type}

/-- Whatever the source answers, a value satisfies `P` and a failure satisfies `E`. -/
def Ensures (e : Emission σ α) (P : α → Prop) (E : EmissionError → Prop) : Prop :=
  ∀ s, match e s with
    | .ok a _ => P a
    | .error x _ => E x

section Ensures

variable {P : α → Prop} {Q : β → Prop} {E : EmissionError → Prop}

theorem Ensures.of_ok {e : Emission σ α} (h : e.Ensures P E) {s s' : σ} {a : α}
    (he : e s = .ok a s') : P a := by
  have := h s
  rwa [he] at this

/-- What cannot fail yields a value. -/
theorem Ensures.exists_ok {e : Emission σ α} (h : e.Ensures P fun _ => False) (s : σ) :
    ∃ a s', e s = .ok a s' ∧ P a := by
  have hs := h s
  cases he : e s with
  | ok a s' =>
    rw [he] at hs
    exact ⟨a, s', rfl, hs⟩
  | error x s' =>
    rw [he] at hs
    exact hs.elim

theorem ensures_pure {a : α} (h : P a) : Ensures (pure a : Emission σ α) P E := fun _ => h

theorem ensures_throw {x : EmissionError} (h : E x) : Ensures (throw x : Emission σ α) P E :=
  fun _ => h

theorem ensures_of_forall {e : Emission σ α} (h : ∀ a, P a) : e.Ensures P fun _ => True := by
  intro s
  cases e s with
  | ok a _ => exact h a
  | error _ _ => trivial

/-- What is ensured ensures what follows from it. -/
theorem Ensures.imp {e : Emission σ α} {P' : α → Prop} {E' : EmissionError → Prop}
    (h : e.Ensures P E) (hP : ∀ a, P a → P' a) (hE : ∀ x, E x → E' x) : e.Ensures P' E' := by
  intro s
  have hs := h s
  cases he : e s with
  | ok a s' =>
    rw [he] at hs
    exact hP a hs
  | error x s' =>
    rw [he] at hs
    exact hE x hs

theorem Ensures.mono {e : Emission σ α} {P' : α → Prop} (h : e.Ensures P E)
    (hP : ∀ a, P a → P' a) : e.Ensures P' E :=
  h.imp hP fun _ hx => hx

/-- What the first emission ensures is what the second one may start from. -/
theorem Ensures.bind {e : Emission σ α} {f : α → Emission σ β} (he : e.Ensures P E)
    (hf : ∀ a, P a → (f a).Ensures Q E) : (e >>= f).Ensures Q E := by
  intro s
  have hbind : (e >>= f) s = EStateM.bind e f s := rfl
  rw [hbind, EStateM.bind]
  have hs := he s
  cases h : e s with
  | ok a s' =>
    rw [h] at hs
    exact hf a hs s'
  | error x s' =>
    rw [h] at hs
    exact hs

/-- An emission for each member of a list, one after the other. -/
theorem Ensures.mapM {f : α → Emission σ β} {R : α → β → Prop} {l : List α}
    (h : ∀ a ∈ l, (f a).Ensures (R a) E) : (l.mapM f).Ensures (List.Forall₂ R l) E := by
  induction l with
  | nil => exact ensures_pure .nil
  | cons a l ih =>
    rw [List.mapM_cons]
    apply (h a List.mem_cons_self).bind
    intro b hb
    apply (ih fun a' ha' => h a' (List.mem_cons_of_mem a ha')).bind
    intro bs hbs
    exact ensures_pure (.cons hb hbs)

theorem ensures_draw {source : RandomSource σ} {least below : Nat} (h : least < below)
    (hl : least < unbounded) :
    (draw source least below).Ensures (fun n => least ≤ n ∧ n < below) E :=
  fun s => source.range_mem s h hl

theorem ensures_shuffled {source : RandomSource σ} {l : List α} :
    (shuffled source l).Ensures (fun l' => l'.Perm l) E :=
  fun s => source.shuffle_perm l s

/-- The first emission that succeeds does so as it would alone; where all fail, the last failure is
reported. A local failure is what is reported if all the others fail as well. -/
theorem ensures_firstOf {es : List (Emission σ α)} {last : EmissionError} (hlast : E last)
    (h : ∀ e ∈ es, e.Ensures P E) : (firstOf last es).Ensures P E := by
  induction es generalizing last with
  | nil => exact ensures_throw hlast
  | cons e es ih =>
    intro s
    have hs := h e List.mem_cons_self s
    simp only [firstOf]
    cases he : e s with
    | ok a s' =>
      rw [he] at hs
      exact hs
    | error x s' =>
      rw [he] at hs
      by_cases hx : x.isLocal = true
      · simp only [hx, if_true]
        exact ih hs (fun e' he' => h e' (List.mem_cons_of_mem e he')) s'
      · simp only [hx]
        exact hs

end Ensures

/-! ## Where failures come from -/

/-- From some state of the source the emission fails with the error. -/
def CanFail (e : Emission σ α) (x : EmissionError) : Prop := ∃ s s', e s = .error x s'

section CanFail

variable {P : α → Prop} {E : EmissionError → Prop} {e : Emission σ α} {x : EmissionError}

theorem Ensures.of_canFail (h : e.Ensures P E) (hx : e.CanFail x) : E x := by
  obtain ⟨s, s', hs⟩ := hx
  have := h s
  rwa [hs] at this

theorem ensures_canFail (e : Emission σ α) : e.Ensures (fun _ => True) e.CanFail := by
  intro s
  cases hs : e s with
  | ok a s' => trivial
  | error x s' => exact ⟨s, s', hs⟩

/-- Where no value is possible, the emission fails. -/
theorem Ensures.exists_canFail [Nonempty σ] (h : e.Ensures P E) (hP : ∀ a, ¬ P a) :
    ∃ x, e.CanFail x := by
  obtain ⟨s⟩ := ‹Nonempty σ›
  cases hs : e s with
  | ok a s' => exact absurd (h.of_ok hs) (hP a)
  | error x s' => exact ⟨x, s, s', hs⟩

theorem not_canFail_pure {a : α} : ¬ (pure a : Emission σ α).CanFail x := by
  rintro ⟨s, s', h⟩
  cases h

theorem eq_of_canFail_throw {y : EmissionError} (h : (throw y : Emission σ α).CanFail x) :
    x = y := by
  obtain ⟨s, s', hs⟩ := h
  cases hs
  rfl

/-- A failure of two emissions one after the other is one of the first, or one of the second with a
value of the first. -/
theorem CanFail.of_bind {f : α → Emission σ β} (h : (e >>= f).CanFail x) (he : e.Ensures P E) :
    E x ∨ ∃ a, P a ∧ (f a).CanFail x := by
  obtain ⟨s, s', hs⟩ := h
  have hbind : (e >>= f) s = EStateM.bind e f s := rfl
  rw [hbind, EStateM.bind] at hs
  have hfirst := he s
  cases hes : e s with
  | ok a s₁ =>
    rw [hes] at hfirst hs
    exact .inr ⟨a, hfirst, s₁, s', hs⟩
  | error y s₁ =>
    rw [hes] at hfirst hs
    cases hs
    exact .inl hfirst

theorem CanFail.bind {f : α → Emission σ β} (h : e.CanFail x) : (e >>= f).CanFail x := by
  obtain ⟨s, s', hs⟩ := h
  refine ⟨s, s', ?_⟩
  have hbind : (e >>= f) s = EStateM.bind e f s := rfl
  rw [hbind, EStateM.bind, hs]

/-- Where a row of emissions fails, one of them does. -/
theorem CanFail.of_mapM {f : α → Emission σ β} {l : List α} (h : (l.mapM f).CanFail x) :
    ∃ a ∈ l, (f a).CanFail x := by
  induction l with
  | nil => exact absurd h not_canFail_pure
  | cons a l ih =>
    rw [List.mapM_cons] at h
    rcases h.of_bind (ensures_canFail (f a)) with hfirst | ⟨b, -, h⟩
    · exact ⟨a, List.mem_cons_self, hfirst⟩
    rcases h.of_bind (ensures_canFail (l.mapM f)) with hrest | ⟨bs, -, h⟩
    · obtain ⟨a', ha', hx⟩ := ih hrest
      exact ⟨a', List.mem_cons_of_mem a ha', hx⟩
    · exact absurd h not_canFail_pure

/-- Strings that are emitted one after the other fail where one of them does. -/
theorem CanFail.of_texts {f : α → Emission σ (List Char)} {l : List α}
    (h : (l.mapM f >>= fun texts => pure texts.flatten).CanFail x) :
    ∃ a ∈ l, (f a).CanFail x := by
  rcases h.of_bind (ensures_canFail (l.mapM f)) with h | ⟨texts, -, h⟩
  · exact h.of_mapM
  · exact absurd h not_canFail_pure

/-- What the first of some emissions fails with: what one of them fails with, unless there is
none. -/
theorem CanFail.of_firstOf {es : List (Emission σ α)} {last : EmissionError}
    (h : (firstOf last es).CanFail x) : es = [] ∧ x = last ∨ ∃ e ∈ es, e.CanFail x := by
  induction es generalizing last with
  | nil => exact .inl ⟨rfl, eq_of_canFail_throw h⟩
  | cons e es ih =>
    obtain ⟨s, s', hs⟩ := h
    simp only [firstOf] at hs
    cases hes : e s with
    | ok a s₁ =>
      rw [hes] at hs
      cases hs
    | error y s₁ =>
      rw [hes] at hs
      dsimp only at hs
      split at hs
      · rcases ih ⟨s₁, s', hs⟩ with ⟨-, rfl⟩ | ⟨e', he', hx⟩
        · exact .inr ⟨e, List.mem_cons_self, s, s₁, hes⟩
        · exact .inr ⟨e', List.mem_cons_of_mem e he', hx⟩
      · cases hs
        exact .inr ⟨e, List.mem_cons_self, s, _, hes⟩

/-- Before a local failure is reported, all of the emissions have been tried in vain. -/
theorem CanFail.each_of_firstOf {es : List (Emission σ α)} {last : EmissionError}
    (h : (firstOf last es).CanFail x) (hx : x.isLocal = true) : ∀ e ∈ es, ∃ y, e.CanFail y := by
  induction es generalizing last with
  | nil => simp
  | cons e es ih =>
    obtain ⟨s, s', hs⟩ := h
    simp only [firstOf] at hs
    cases hes : e s with
    | ok a s₁ =>
      rw [hes] at hs
      cases hs
    | error y s₁ =>
      rw [hes] at hs
      dsimp only at hs
      split at hs
      · exact List.forall_mem_cons.mpr ⟨⟨y, s, s₁, hes⟩, ih ⟨s₁, s', hs⟩⟩
      next hy =>
        cases hs
        exact absurd hx hy

end CanFail

end Emission

/-! ## Prescribed answers -/

/-- An answer to a random choice. -/
inductive Answer where
  | count (n : Nat)
  | order (l : List Nat)

/-- The source that gives the prescribed answers, one for each choice. An answer that is not
allowed is replaced by the least count, or by the order as it is. -/
def RandomSource.prescribed : RandomSource (List Answer) where
  range least below
    | .count n :: rest => (if least ≤ n ∧ n < below then n else least, rest)
    | answers => (least, answers)
  order n
    | .order l :: rest => (if l.Perm (List.range n) then l else List.range n, rest)
    | answers => (List.range n, answers)
  range_mem {least below} s hb _ := by
    split
    · dsimp only
      split <;> omega
    · exact ⟨Nat.le_refl _, hb⟩
  range_empty {least below} s hb _ := by
    split
    · exact if_neg (by omega)
    · rfl
  order_perm n s := by
    split
    · dsimp only
      split
      · assumption
      · exact .refl _
    · exact .refl _

namespace Emission

open RandomSource (prescribed)

variable {α β : Type}

/-- With some prescribed answers, which are used up, the emission yields the value. -/
def CanYield (e : Emission (List Answer) α) (a : α) : Prop :=
  ∀ rest, ∃ answers, e (answers ++ rest) = .ok a rest

theorem canYield_pure (a : α) : CanYield (pure a) a := fun _ => ⟨[], rfl⟩

/-- The answers of the second of two emissions follow those of the first one. -/
theorem CanYield.bind {e : Emission (List Answer) α} {f : α → Emission (List Answer) β} {a : α}
    {b : β} (he : e.CanYield a) (hf : (f a).CanYield b) : (e >>= f).CanYield b := by
  intro rest
  obtain ⟨later, hlater⟩ := hf rest
  obtain ⟨first, hfirst⟩ := he (later ++ rest)
  refine ⟨first ++ later, ?_⟩
  have hbind : (e >>= f) (first ++ later ++ rest) =
      EStateM.bind e f (first ++ (later ++ rest)) := by
    rw [List.append_assoc]
    rfl
  rw [hbind, EStateM.bind, hfirst]
  exact hlater

/-- What the second of two emissions fails with, if the first can yield the value for it. -/
theorem CanYield.bind_canFail {e : Emission (List Answer) α} {f : α → Emission (List Answer) β}
    {a : α} {x : EmissionError} (he : e.CanYield a) (hf : (f a).CanFail x) :
    (e >>= f).CanFail x := by
  obtain ⟨s, s', hs⟩ := hf
  obtain ⟨first, hfirst⟩ := he s
  refine ⟨first ++ s, s', ?_⟩
  have hbind : (e >>= f) (first ++ s) = EStateM.bind e f (first ++ s) := rfl
  rw [hbind, EStateM.bind, hfirst]
  exact hs

theorem CanYield.mapM {f : α → Emission (List Answer) β} {l : List α} {bs : List β}
    (h : List.Forall₂ (fun a b => (f a).CanYield b) l bs) : (l.mapM f).CanYield bs := by
  induction h with
  | nil => exact canYield_pure []
  | cons ha _ ih =>
    rw [List.mapM_cons]
    exact ha.bind (ih.bind (canYield_pure _))

theorem canYield_draw {least below n : Nat} (hl : least ≤ n) (hb : n < below) :
    (draw prescribed least below).CanYield n := by
  intro rest
  refine ⟨[.count n], ?_⟩
  simp [draw, prescribed, hl, hb]

/-- Every order of a list is one that the source can choose. The numbers of the members are put into
the same order as the members. -/
theorem canYield_shuffled {l l' : List α} (h : l'.Perm l) :
    (shuffled prescribed l).CanYield l' := by
  have hplaces : List.Forall₂ (fun a i => l[i]? = some a) l (List.range l.length) := by
    rw [List.forall₂_iff_get]
    refine ⟨by simp, fun i hi hi' => ?_⟩
    simp [List.getElem?_eq_getElem hi]
  obtain ⟨order, horder, hperm⟩ := List.perm_comp_forall₂ h hplaces
  intro rest
  refine ⟨[.order order], ?_⟩
  have hl' : order.filterMap (l[·]?) = l' := by
    clear hperm h hplaces
    induction horder with
    | nil => rfl
    | cons ha _ ih => rw [List.filterMap_cons, ha, ih]
  simp [shuffled, RandomSource.shuffle, prescribed, hperm, hl']

theorem canYield_firstOf {e : Emission (List Answer) α} {es : List (Emission (List Answer) α)}
    {last : EmissionError} {a : α} (h : e.CanYield a) : (firstOf last (e :: es)).CanYield a := by
  intro rest
  obtain ⟨answers, ha⟩ := h rest
  refine ⟨answers, ?_⟩
  simp only [firstOf]
  rw [ha]

end Emission

end Exemplar
