import Exemplar.Proofs.Complement.Disjoint
import Exemplar.Proofs.Complement.First
import Exemplar.Proofs.Emission.Failure

/-!
# Complements exist and generate

Where no match is empty there is a complement, since the empty string does not match. Whatever
complement there is, each class in it has characters: those that cannot begin a match are put into
it only if there are any, and a sample of them leaves some, and the alphabet has characters that
are no line terminators. So a complement describes some string, and its generator never asks for a
character that is not there.

## Main definitions

* `Tree.IsDrawable`: the class of a leaf has characters, whether the leaf may occur or not

## Main results

* `Tree.drawable_of_complement?`: the classes of a complement have characters
* `Tree.search_of_drawable`: what a search in such a tree comes to
* `Generator.complements_exist`: complements exist where they must, describe strings and generate
-/

namespace Exemplar

namespace Tree

variable {alphabet : Alphabet} {t r : Tree}

/-- The class of a leaf has characters in the alphabet, whether the leaf may occur or not. -/
def IsDrawable (alphabet : Alphabet) : Tree → Prop
  | leaf cls _ => (cls.resolve alphabet).isEmpty = false
  | sequence _ _ | choice _ _ => True

theorem Every.hasChars_of_drawable (h : t.Every (IsDrawable alphabet)) :
    t.Every (HasChars (.drawn alphabet)) := by
  refine h.imp fun u hu _ => ?_
  cases u with
  | leaf cls m => exact fun _ => CharSet.isEmpty_eq_false_iff.mp hu
  | sequence => trivial
  | choice => trivial

/-! ## Classes of a complement -/

/-- Some printable character does not end a line, as none of them does. -/
theorem isEmpty_resolve_dot (alphabet : Alphabet) :
    (CharClass.dot.resolve alphabet).isEmpty = false := by
  obtain ⟨c, hc⟩ := CharSet.isEmpty_eq_false_iff.mp alphabet.printable_nonempty
  exact CharSet.isEmpty_eq_false_of_mem
    (CharSet.mem_diff.mpr ⟨hc, alphabet.printable_disjoint c hc⟩)

theorem every_drawable_withOccurs {cls : CharClass} (h : (cls.resolve alphabet).isEmpty = false)
    (occurs : Extent) : ((ofClass cls).withOccurs occurs).Every (IsDrawable alphabet) := by
  refine .node _ h ?_
  rw [withOccurs, children_withMark]
  simp [ofClass, children]

theorem every_drawable_anyOf {set : CharSet} {c : Char} (h : c ∈ set) (occurs : Extent) :
    ((ofClass (.anyOf set)).withOccurs occurs).Every (IsDrawable alphabet) :=
  every_drawable_withOccurs (show (CharClass.resolve alphabet (.anyOf set)).isEmpty = false from
    CharSet.isEmpty_eq_false_of_mem h) occurs

theorem every_drawable_empty : empty.Every (IsDrawable alphabet) :=
  .node _ trivial (by simp [empty, ofParts, children])

/-- Characters that cannot begin a match are looked for only where there are some. -/
theorem drawable_of_wrongBeginning? (h : t.wrongBeginning? alphabet = some r) :
    r.Every (IsDrawable alphabet) := by
  unfold wrongBeginning? at h
  dsimp only at h
  split at h
  · cases h
  next hsome =>
    obtain rfl := Option.some.inj h
    rw [Bool.or_eq_true, not_or, Bool.not_eq_true, Bool.not_eq_true] at hsome
    obtain ⟨c, hc⟩ := CharSet.isEmpty_eq_false_iff.mp hsome.2
    obtain ⟨d, hd⟩ := CharSet.exists_mem_sample hc (show 0 < sampleLimit by decide)
    exact every_drawable_anyOf hd _

/-- Short strings are made of characters that may begin a match, or of none if there are none. -/
theorem drawable_tooShort (alphabet : Alphabet) (t : Tree) :
    (t.tooShort alphabet).Every (IsDrawable alphabet) := by
  unfold tooShort
  dsimp only
  split
  · exact every_drawable_empty
  next hsome =>
    rw [Bool.or_eq_true, not_or, Bool.not_eq_true] at hsome
    obtain ⟨c, hc⟩ := CharSet.isEmpty_eq_false_iff.mp hsome.1
    exact every_drawable_anyOf hc _

theorem drawable_of_mem_derivations (h : r ∈ t.derivations alphabet) :
    r.Every (IsDrawable alphabet) := by
  rcases of_mem_derivations h with h | ⟨-, rfl⟩
  · exact drawable_of_wrongBeginning? h
  · exact drawable_tooShort alphabet t

/-- The classes of a complement have characters, whatever the tree is. -/
theorem drawable_of_complement? {anchored : Bool} (h : t.complement? alphabet anchored = some r) :
    r.Every (IsDrawable alphabet) := by
  obtain ⟨-, tree, htree, rfl⟩ := of_complement? h
  have hpinned {u : Tree} (hu : u.Every (IsDrawable alphabet)) :
      (u.pinned .both).Every (IsDrawable alphabet) :=
    hu.withMark (by have := (every_iff.mp hu).1; cases u <;> exact this)
  refine hpinned ?_
  cases htree with
  | text => exact every_drawable_withOccurs (isEmpty_resolve_dot alphabet) _
  | derivation hmem => exact drawable_of_mem_derivations hmem
  | derivations => exact .node _ trivial fun _ hu => drawable_of_mem_derivations hu

/-! ## Searches -/

/-- Where the classes have characters, a search finds a string or tells of a length. A failure of
another kind would blame a leaf without characters. -/
theorem search_of_drawable {σ : Type} (h : t.Every (IsDrawable alphabet))
    (source : RandomSource σ) (target : Extent) (s : σ) :
    let result := ((t.emitter source alphabet).search source target s).1.result
    (∃ w, result = .ok w) ∨ ∃ reason, result = .error (.length reason) := by
  intro result
  cases hresult : result with
  | ok w => exact .inl ⟨w, rfl⟩
  | error x =>
    right
    rcases Emitter.search_error hresult with
      ⟨reason, -, rfl⟩ | ⟨lengths, -, ⟨n, -, rfl⟩ | ⟨n, -, hx, hother⟩⟩
    · exact ⟨reason, rfl⟩
    · exact ⟨.infeasible n, rfl⟩
    · cases blames_of_canFail hx with
      | length n => cases hother
      | leaf hnode hempty =>
        have hchars := every_iff_hasNode.mp h _ hnode
        rw [IsDrawable, hempty] at hchars
        cases hchars

end Tree

namespace Generator

/-- A generator without the empty string has a complement, however many complements it is away from
a pattern. Any complement of a generator describes some string, and whatever the source answers and
whichever lengths are asked for, it generates a string or tells of a length. -/
theorem complements_exist {g : Generator} (hg : g.Arises) :
    (0 < g.length.least → ∃ c, g.notMatching? = some c) ∧
    ∀ c, g.notMatching? = some c →
      (∃ w, w ∈ c.root.language (.drawn c.options.alphabet)) ∧
      ∀ {σ : Type} (source : RandomSource σ) (target : Extent) (s : σ),
        (∃ text s', c.generate source target s = .ok text s') ∨
          ∃ reason s', c.generate source target s = .error (.length reason) s' := by
  constructor
  · intro hleast
    -- A tree without the empty string is not nullable, so its complement has some part.
    have hnull : g.root.isNullable = false := by
      rw [← Bool.not_eq_true, Tree.isNullable_iff_least hg.hasMembers]
      exact Nat.ne_of_gt hleast
    obtain ⟨r, hr, -⟩ := Tree.exists_complement hnull hleast g.anchored
    exact ⟨_, Option.map_eq_some_iff.mpr ⟨r, hr, rfl⟩⟩
  · intro c hc
    -- The complement arises as well, so its choices have members, and its leaves have characters.
    have hmembers := (hg.complement hc).hasMembers
    obtain ⟨root, hroot, rfl⟩ := Option.map_eq_some_iff.mp hc
    have hdrawable := Tree.drawable_of_complement? hroot
    obtain ⟨w, hw, -⟩ := (Tree.attains_length hdrawable.hasChars_of_drawable hmembers).1
    refine ⟨⟨w, hw⟩, fun source target s => ?_⟩
    rcases Tree.search_of_drawable hdrawable source target s with ⟨w, hw⟩ | ⟨reason, hreason⟩
    · refine .inl ⟨.ofList w, generate_eq_ok.mpr ?_⟩
      rwa [String.toList_ofList]
    · exact .inr ⟨reason, generate_eq_error.mpr hreason⟩

/-- The strings of `^(?:cat|dog)$` are not empty, so it has a complement, which describes some
string. -/
theorem complements_exist_branches : ∃ c, compile {} "^(?:cat|dog)$" = .ok c ∧
    0 < c.generator.length.least ∧ ∃ a, c.generator.notMatching? = some a ∧
      ∃ w, w ∈ a.root.language (.drawn a.options.alphabet) := by
  obtain ⟨c, hc, htest⟩ := exists_of_compile
    (show ((compile {} "^(?:cat|dog)$").toOption.any fun c =>
      decide (0 < c.generator.length.least)) = true by decide +kernel)
  have hleast := of_decide_eq_true htest
  obtain ⟨hexists, hall⟩ := complements_exist (.compiled hc)
  obtain ⟨a, ha⟩ := hexists hleast
  exact ⟨c, hc, hleast, a, ha, (hall a ha).1⟩

end Generator

end Exemplar
