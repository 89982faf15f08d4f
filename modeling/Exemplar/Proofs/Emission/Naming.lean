import Exemplar.Proofs.Emission.Emitter
import Exemplar.Proofs.Lists
import Exemplar.Proofs.Sources

/-!
# Emissions from trees without sources

The text that a leaf was read from is told when its class has no characters. Apart from this text, a
tree without sources emits what the tree does: the same strings from the same answers of the random
source, and the same errors.

## Main definitions

* `EmissionError.unnamed`: an error without the text of a class
* `Emission.AgreesAt`, `Emission.Agrees`: emissions that differ in such texts only

## Main results

* `Emission.Agrees.bind`, `Emission.Agrees.mapM`, `Emission.agrees_firstOf`: emissions that are put
  together
* `Tree.agrees_emitter`: the emitter of a tree without sources
* `Generator.agreesAt_generate`: generators whose trees differ in their sources only
-/

namespace Exemplar

/-- The error without the text of the class that has no characters. -/
def EmissionError.unnamed : EmissionError → EmissionError
  | emptyClass _ => emptyClass ""
  | e => e

section Errors

variable {e e' : EmissionError}

theorem isLocal_eq_of_unnamed (h : e.unnamed = e'.unnamed) : e.isLocal = e'.isLocal := by
  have hunnamed : ∀ e : EmissionError, e.unnamed.isLocal = e.isLocal := by
    intro e
    cases e <;> rfl
  rw [← hunnamed e, h, hunnamed]

theorem isInfeasible_eq_of_unnamed (h : e.unnamed = e'.unnamed) :
    e.isInfeasible = e'.isInfeasible := by
  have hunnamed : ∀ e : EmissionError, e.unnamed.isInfeasible = e.isInfeasible := by
    intro e
    cases e <;> rfl
  rw [← hunnamed e, h, hunnamed]

end Errors

namespace Emission

variable {σ α β γ δ : Type} {R : α → β → Prop} {S : γ → δ → Prop}

/-- Two outcomes in the same state of the source: related values, or errors that differ in the text
of a class only. -/
inductive AgreesAt (R : α → β → Prop) : EStateM.Result EmissionError σ α →
    EStateM.Result EmissionError σ β → Prop where
  | ok {a : α} {b : β} {s : σ} : R a b → AgreesAt R (.ok a s) (.ok b s)
  | error {e e' : EmissionError} {s : σ} : e.unnamed = e'.unnamed →
    AgreesAt R (.error e s) (.error e' s)

/-- Whatever the source answers, the outcomes agree. -/
def Agrees (R : α → β → Prop) (x : Emission σ α) (y : Emission σ β) : Prop :=
  ∀ s, AgreesAt R (x s) (y s)

theorem agrees_pure {a : α} {b : β} (h : R a b) :
    Agrees R (pure a : Emission σ α) (pure b : Emission σ β) :=
  fun _ => .ok h

theorem agrees_throw {e e' : EmissionError} (h : e.unnamed = e'.unnamed) :
    Agrees R (throw e : Emission σ α) (throw e' : Emission σ β) :=
  fun _ => .error h

/-- Nothing is done behind an error. -/
theorem agrees_throw_bind {e e' : EmissionError} (h : e.unnamed = e'.unnamed)
    {f : α → Emission σ γ} {g : β → Emission σ δ} :
    Agrees S ((throw e : Emission σ α) >>= f) ((throw e' : Emission σ β) >>= g) :=
  fun _ => .error h

theorem agrees_refl (x : Emission σ α) : Agrees Eq x x := by
  intro s
  cases x s with
  | ok a s' => exact .ok rfl
  | error e s' => exact .error rfl

/-- Emissions that agree are followed by emissions that do: either both go on from the same state of
the source, or both fail. -/
theorem Agrees.bind {x : Emission σ α} {y : Emission σ β} {f : α → Emission σ γ}
    {g : β → Emission σ δ} (h : Agrees R x y) (hfg : ∀ a b, R a b → Agrees S (f a) (g b)) :
    Agrees S (x >>= f) (y >>= g) := by
  intro s
  have hx : (x >>= f) s = EStateM.bind x f s := rfl
  have hy : (y >>= g) s = EStateM.bind y g s := rfl
  rw [hx, hy, EStateM.bind, EStateM.bind]
  have hs := h s
  cases hxs : x s with
  | ok a s' =>
    rw [hxs] at hs
    cases hys : y s with
    | ok b s'' =>
      rw [hys] at hs
      cases hs with
      | ok hab => exact hfg a b hab s'
    | error e s'' =>
      rw [hys] at hs
      cases hs
  | error e s' =>
    rw [hxs] at hs
    cases hys : y s with
    | ok b s'' =>
      rw [hys] at hs
      cases hs
    | error e' s'' =>
      rw [hys] at hs
      cases hs with
      | error he => exact .error he

/-- An emission for each member of a list, one after the other. -/
theorem Agrees.mapM {f : α → Emission σ γ} {g : β → Emission σ δ} {l : List α} {m : List β}
    (hlm : List.Forall₂ (fun a b => Agrees S (f a) (g b)) l m) :
    Agrees (List.Forall₂ S) (l.mapM f) (m.mapM g) := by
  induction hlm with
  | nil => exact agrees_pure .nil
  | cons hab _ ih =>
    rw [List.mapM_cons, List.mapM_cons]
    exact hab.bind fun _ _ hc => ih.bind fun _ _ hcs => agrees_pure (.cons hc hcs)

/-- Strings one after the other. -/
theorem agrees_flatten {f : α → Emission σ (List Char)} {g : β → Emission σ (List Char)}
    {l : List α} {m : List β} (hlm : List.Forall₂ (fun a b => Agrees Eq (f a) (g b)) l m) :
    Agrees Eq (l.mapM f >>= fun texts => pure texts.flatten)
      (m.mapM g >>= fun texts => pure texts.flatten) := by
  refine (Agrees.mapM hlm).bind fun texts texts' h => agrees_pure ?_
  rw [List.forall₂_eq_eq_eq] at h
  rw [h]

/-- The same order is chosen for lists of the same length. -/
theorem agrees_shuffled {source : RandomSource σ} {l : List α} {m : List β}
    (h : List.Forall₂ R l m) :
    Agrees (List.Forall₂ R) (shuffled source l) (shuffled source m) := by
  intro s
  have hpick : ∀ order : List Nat,
      List.Forall₂ R (order.filterMap (l[·]?)) (order.filterMap (m[·]?)) := by
    intro order
    induction order with
    | nil => exact .nil
    | cons i order ih =>
      rw [List.filterMap_cons, List.filterMap_cons]
      cases hi : l[i]? with
      | none =>
        rw [List.getElem?_eq_none_iff, h.length_eq, ← List.getElem?_eq_none_iff] at hi
        rw [hi]
        exact ih
      | some a =>
        have hlt : i < m.length := h.length_eq ▸ (List.getElem?_eq_some_iff.mp hi).1
        rw [List.getElem?_eq_getElem hlt]
        exact .cons (rel_of_getElem? h hi (List.getElem?_eq_getElem hlt)) ih
  simp only [shuffled, RandomSource.shuffle, h.length_eq]
  exact .ok (hpick _)

/-- The first of some emissions that succeeds agrees with the first of others that agree with them
one by one: either both go on to the next emission, or neither does. -/
theorem agrees_firstOf {l : List (Emission σ α)} {m : List (Emission σ β)} {e e' : EmissionError}
    (he : e.unnamed = e'.unnamed) (h : List.Forall₂ (Agrees R) l m) :
    Agrees R (firstOf e l) (firstOf e' m) := by
  induction h generalizing e e' with
  | nil => exact agrees_throw he
  | @cons x y l m hxy _ ih =>
    intro s
    have hs := hxy s
    simp only [firstOf]
    cases hx : x s with
    | ok a s' =>
      rw [hx] at hs
      cases hy : y s with
      | ok b s'' =>
        rw [hy] at hs
        exact hs
      | error failure s'' =>
        rw [hy] at hs
        cases hs
    | error failure s' =>
      rw [hx] at hs
      cases hy : y s with
      | ok b s'' =>
        rw [hy] at hs
        cases hs
      | error failure' s'' =>
        rw [hy] at hs
        cases hs with
        | error hfailure =>
          simp only [isLocal_eq_of_unnamed hfailure]
          split
          · exact ih hfailure s'
          · exact .error hfailure

end Emission

/-! ## Emitters -/

namespace Emitter

open Emission

variable {σ : Type} {source : RandomSource σ}

/-- Two emitters of the same strings, apart from the texts of classes in errors. -/
structure Agrees (e e' : Emitter σ) : Prop where
  length : e.length = e'.length
  emit : ∀ total, Emission.Agrees Eq (e.emit total) (e'.emit total)

theorem map_length_eq {es es' : List (Emitter σ)} (h : List.Forall₂ Agrees es es') :
    es.map (·.length) = es'.map (·.length) := by
  induction h with
  | nil => rfl
  | cons he _ ih => rw [List.map_cons, List.map_cons, he.length, ih]

/-- The text of a leaf is looked at only in the error that tells of a class without characters. -/
theorem agrees_ofLeaf (alphabet : Alphabet) (cls : CharClass) {m m' : Mark}
    (h : m.occurs = m'.occurs) :
    Agrees (ofLeaf source alphabet cls m) (ofLeaf source alphabet cls m') := by
  refine ⟨h, fun total => ?_⟩
  simp only [ofLeaf, h]
  split
  · exact agrees_throw_bind rfl
  split
  · exact agrees_refl _
  split
  · exact agrees_throw_bind (by rfl)
  · exact agrees_refl _

/-- Sequences of emitters that agree one by one agree. -/
theorem agrees_sequence {parts parts' : List (Emitter σ)} (h : List.Forall₂ Agrees parts parts') :
    Agrees (sequence source parts) (sequence source parts') := by
  refine ⟨congrArg Extent.sumAll (map_length_eq h), fun total => ?_⟩
  simp only [sequence, map_length_eq h]
  refine (agrees_refl _).bind ?_
  rintro lengths _ rfl
  apply agrees_flatten
  induction h generalizing lengths with
  | nil => exact .nil
  | cons he _ ih =>
    cases lengths with
    | nil => exact .nil
    | cons n lengths => exact .cons (he.emit n) (ih lengths)

/-- Choices between emitters that agree one by one agree. -/
theorem agrees_choice {members members' : List (Emitter σ)}
    (h : List.Forall₂ Agrees members members') :
    Agrees (choice source members) (choice source members') := by
  refine ⟨congrArg Extent.hullAll (map_length_eq h), fun total => ?_⟩
  have hfilter : List.Forall₂ Agrees (members.filter (total ∈ ·.length))
      (members'.filter (total ∈ ·.length)) := by
    induction h with
    | nil => exact .nil
    | cons he _ ih =>
      rw [List.filter_cons, List.filter_cons, he.length]
      split
      · exact .cons he ih
      · exact ih
  simp only [choice]
  refine (agrees_shuffled hfilter).bind fun candidates candidates' hcandidates => ?_
  refine agrees_firstOf rfl ?_
  rw [List.forall₂_map_left_iff, List.forall₂_map_right_iff]
  exact hcandidates.imp fun _ _ he => he.emit total

/-- Emitters that agree do so when they are repeated. -/
theorem agrees_repeated {occurs : Extent} {once once' : Emitter σ} (h : Agrees once once') :
    Agrees (repeated source occurs once) (repeated source occurs once') := by
  refine ⟨congrArg (Extent.mul occurs) h.length, fun total => ?_⟩
  simp only [repeated, h.length]
  split
  · exact agrees_throw_bind rfl
  split
  · exact agrees_refl _
  split
  · exact agrees_throw rfl
  · refine (agrees_refl _).bind ?_
    rintro count _ rfl
    refine (agrees_refl _).bind ?_
    rintro lengths _ rfl
    exact agrees_flatten (List.forall₂_same.mpr fun n _ => h.emit n)

end Emitter

/-- Two searches that have failed in the same ways and have come to the same end, apart from the
text of a class in an error. -/
def Search.Agrees (x y : Search) : Prop :=
  x.failed = y.failed ∧ x.result.mapError EmissionError.unnamed =
    y.result.mapError EmissionError.unnamed

namespace Emitter

variable {σ : Type} {e e' : Emitter σ}

/-- Emitters that agree are searched in lockstep. Either both draw another length, or neither
does. -/
theorem Agrees.attempt (h : Agrees e e') (source : RandomSource σ) (lengths : Extent)
    (attempts : Nat) (failed : List Nat) (s : σ) :
    (e.attempt source lengths attempts failed s).1.Agrees
        (e'.attempt source lengths attempts failed s).1 ∧
      (e.attempt source lengths attempts failed s).2 =
        (e'.attempt source lengths attempts failed s).2 := by
  induction attempts generalizing failed s with
  | zero => exact ⟨⟨rfl, rfl⟩, rfl⟩
  | succ attempts ih =>
    rw [Emitter.attempt, Emitter.attempt]
    rcases source.range lengths.least (justAbove lengths.most) s with ⟨total, s₁⟩
    have hemit := h.emit total s₁
    cases hx : e.emit total s₁ with
    | ok text s₂ =>
      rw [hx] at hemit
      cases hy : e'.emit total s₁ with
      | ok text' s₃ =>
        rw [hy] at hemit
        cases hemit with
        | ok heq => simp [hx, hy, heq, Search.Agrees]
      | error error s₃ =>
        rw [hy] at hemit
        cases hemit
    | error error s₂ =>
      rw [hx] at hemit
      cases hy : e'.emit total s₁ with
      | ok text' s₃ =>
        rw [hy] at hemit
        cases hemit
      | error error' s₃ =>
        rw [hy] at hemit
        cases hemit with
        | error herror =>
          simp only [hx, hy, isInfeasible_eq_of_unnamed herror]
          split
          · exact ih _ _
          · exact ⟨⟨rfl, congrArg Except.error herror⟩, rfl⟩

theorem Agrees.search (h : Agrees e e') (source : RandomSource σ) (range : Extent) (s : σ) :
    (e.search source range s).1.Agrees (e'.search source range s).1 ∧
      (e.search source range s).2 = (e'.search source range s).2 := by
  simp only [Emitter.search, h.length]
  split
  · exact ⟨⟨rfl, rfl⟩, rfl⟩
  · exact h.attempt source _ _ _ _

end Emitter

namespace Tree

variable {σ : Type} (source : RandomSource σ) (alphabet : Alphabet)

/-- A tree without sources emits what the tree does. -/
theorem agrees_emitter (t : Tree) :
    (t.unsourced.emitter source alphabet).Agrees (t.emitter source alphabet) := by
  have hmap : ∀ ts : List Tree,
      (∀ t ∈ ts, (t.unsourced.emitter source alphabet).Agrees (t.emitter source alphabet)) →
      List.Forall₂ Emitter.Agrees (emitters source alphabet (ts.map unsourced))
        (emitters source alphabet ts) := by
    intro ts h
    rw [emitters_eq_map, emitters_eq_map, List.map_map, List.forall₂_map_left_iff,
      List.forall₂_map_right_iff]
    exact List.forall₂_same.mpr h
  induction t with
  | leaf cls m =>
    rw [unsourced_leaf, emitter, emitter]
    exact Emitter.agrees_ofLeaf alphabet cls rfl
  | sequence parts m ih =>
    rw [unsourced_sequence, emitter, emitter]
    exact Emitter.agrees_repeated (Emitter.agrees_sequence (hmap parts ih))
  | choice members m ih =>
    rw [unsourced_choice, emitter, emitter]
    exact Emitter.agrees_repeated (Emitter.agrees_choice (hmap members ih))

end Tree

/-- Generators whose trees differ in their sources only produce the same strings from the same
answers of the random source, and the same errors but for the texts of classes. -/
theorem Generator.agreesAt_generate {g g' : Generator}
    (hroot : g.root.unsourced = g'.root.unsourced)
    (halphabet : g.options.alphabet = g'.options.alphabet) {σ : Type} (source : RandomSource σ)
    (range : Extent) (s : σ) :
    Emission.AgreesAt Eq (g.generate source range s) (g'.generate source range s) := by
  have hsearch : (g.search source range s).1.Agrees (g'.search source range s).1 ∧
      (g.search source range s).2 = (g'.search source range s).2 := by
    have h := (g.root.agrees_emitter source g.options.alphabet).search source range s
    have h' := (g'.root.agrees_emitter source g.options.alphabet).search source range s
    rw [← hroot] at h'
    rw [search, search, ← halphabet]
    exact ⟨⟨h.1.1.symm.trans h'.1.1, h.1.2.symm.trans h'.1.2⟩, h.2.symm.trans h'.2⟩
  unfold generate
  generalize g.search source range s = x at hsearch
  generalize g'.search source range s = y at hsearch
  obtain ⟨⟨failed, result⟩, s₁⟩ := x
  obtain ⟨⟨failed', result'⟩, s₂⟩ := y
  obtain ⟨⟨rfl, hresult⟩, rfl⟩ := hsearch
  cases result <;> cases result' <;> simp only [Except.mapError, Except.ok.injEq,
    Except.error.injEq, reduceCtorEq] at hresult
  · exact .error hresult
  · exact .ok (congrArg _ hresult)

end Exemplar
