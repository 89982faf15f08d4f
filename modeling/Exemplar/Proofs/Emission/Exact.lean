import Exemplar.Proofs.Complement.Steps
import Exemplar.Proofs.Emission.Search
import Exemplar.Proofs.Generator
import Exemplar.Proofs.Padding.Steps
import Exemplar.Proofs.Pattern.Built
import Exemplar.Random.Script

/-!
# Generating exactly

A generator produces the strings that its tree describes, and no others. For strings not to be
missed, the trees must not ask for more occurrences of a node with children than can be counted.
Reading sees to it, and padding and complementing keep it so.

## Main definitions

* `Generator.Arises g`: `g` has been compiled from a pattern, or derived from such a generator

## Main results

* `Generator.Arises.attainable`: what holds of the trees of generators
* `Generator.generate_exact`: a generator produces just the strings that its tree describes
-/

namespace Exemplar

namespace Tree

theorem isAttainable_of_least {t : Tree} (h : t.occurs.least < unbounded) : t.IsAttainable := by
  cases t with
  | leaf => trivial
  | sequence => exact h
  | choice => exact h

variable {t : Tree}

theorem every_attainable_ofClass (cls : CharClass) : (ofClass cls).Every IsAttainable :=
  .node _ trivial (by simp [ofClass, children])

theorem every_attainable_ofParts {parts : List Tree} (h : ∀ t ∈ parts, t.Every IsAttainable) :
    (ofParts parts).Every IsAttainable :=
  .node _ (by decide : (1 : Nat) < unbounded) h

theorem every_attainable_ofMembers {members : List Tree} (h : ∀ t ∈ members, t.Every IsAttainable) :
    (ofMembers members).Every IsAttainable :=
  .node _ (by decide : (1 : Nat) < unbounded) h

theorem Every.attainable_withOccurs (h : t.Every IsAttainable) {occurs : Extent}
    (ho : occurs.least < unbounded) : (t.withOccurs occurs).Every IsAttainable := by
  refine h.withMark (isAttainable_of_least ?_)
  rw [Tree.occurs, mark_withMark]
  exact ho

/-- Another mark that lets the node occur as often makes no difference. -/
theorem Every.attainable_withMark (h : t.Every IsAttainable) {m : Mark} (hm : m.occurs = t.occurs) :
    (t.withMark m).Every IsAttainable := by
  refine h.withMark ?_
  have := (every_iff.mp h).1
  cases t with
  | leaf => trivial
  | sequence _ _ =>
    change m.occurs.least < unbounded
    rw [hm]
    exact this
  | choice _ _ =>
    change m.occurs.least < unbounded
    rw [hm]
    exact this

theorem Every.attainable_pinned (h : t.Every IsAttainable) (pins : Pins) :
    (t.pinned pins).Every IsAttainable :=
  h.attainable_withMark rfl

theorem Every.attainable_withSource (h : t.Every IsAttainable) (source : String) :
    (t.withSource source).Every IsAttainable :=
  h.attainable_withMark rfl

end Tree

/-! ## Reading -/

namespace Pattern

theorem least_lt_of_limitRepeat {pins : Pins} {occurs limited : Extent} {position : Nat}
    (h : limitRepeat pins occurs position = .ok limited) (ho : occurs.least < unbounded) :
    limited.least < unbounded := by
  cases limited_of_limitRepeat h with
  | few => exact ho
  | free => exact ho
  | optional => exact (by decide : (0 : Nat) < unbounded)
  | once => exact (by decide : (1 : Nat) < unbounded)

/-- Reading asks for numbers of occurrences that can be counted. -/
theorem Built.attainable {t : Tree} (h : Built t) : t.Every Tree.IsAttainable := by
  induction h with
  | ofClass cls => exact Tree.every_attainable_ofClass cls
  | empty => exact Tree.every_attainable_ofParts (by simp)
  | withSource source _ ih => exact ih.attainable_withSource source
  | ofParts _ _ ih =>
    apply Tree.every_attainable_ofParts
    intro t ht
    obtain ⟨part, hpart, rfl⟩ := List.mem_map.mp ht
    exact ih part hpart
  | ofMembers _ ih => exact Tree.every_attainable_ofMembers ih
  | repeated _ ho hlimited ih =>
    refine Tree.Every.attainable_withOccurs ?_ (least_lt_of_limitRepeat hlimited ho)
    split
    · exact ih
    · exact Tree.every_attainable_ofParts (by simpa using ih)
  | looked t _ ih => exact ih.attainable_pinned _
  | anchored side _ _ ih => exact ih.attainable_pinned _

end Pattern

/-! ## Padding -/

namespace Tree

variable {side : Side} {t r : Tree}

theorem every_attainable_padding : padding.Every IsAttainable :=
  (every_attainable_ofClass .dot).attainable_withOccurs (by decide)

theorem Every.attainable_wrap (h : t.Every IsAttainable) (side : Side) :
    (t.wrap side).Every IsAttainable := by
  rw [wrap_eq]
  refine Every.attainable_pinned (every_attainable_ofParts fun u hu => ?_) _
  rw [Side.mem_place, List.mem_singleton] at hu
  rcases hu with rfl | rfl
  · exact every_attainable_padding
  · exact h

theorem Every.attainable_single (h : t.Every IsAttainable) : t.single.Every IsAttainable := by
  have hs := (every_iff.mp h).2
  cases t with
  | leaf cls m => exact (every_attainable_ofClass cls).attainable_withMark rfl
  | sequence parts m => exact (every_attainable_ofParts hs).attainable_pinned _
  | choice members m => exact (every_attainable_ofMembers hs).attainable_pinned _

theorem Every.attainable_rebuilt {around : Tree} (h : around.Every IsAttainable) (t : Tree) :
    (t.rebuilt around).Every IsAttainable :=
  (h.attainable_pinned _).attainable_withMark rfl

/-- A step of padding asks for no more occurrences than can be counted, if what is put inside does
not. -/
theorem PadStep.attainable {inside : Tree → Tree → Prop} (hp : PadStep side inside t r)
    (h : t.Every IsAttainable) (hin : ∀ u v, inside u v → v.Every IsAttainable) :
    r.Every IsAttainable := by
  induction hp with
  | kept => exact h
  | wrapped => exact h.attainable_wrap side
  | opened _ _ _ hin' => exact hin _ _ hin'
  | optional _ _ _ _ ih =>
    apply every_attainable_ofMembers
    intro u hu
    rcases List.mem_pair.mp hu with rfl | rfl
    · exact (ih h.attainable_single).attainable_pinned _
    · exact every_attainable_padding.attainable_pinned _

/-- Padding asks for no more occurrences than there were. It goes down to the children at the
side. -/
theorem attainable_of_pad (h : t.Every IsAttainable) (hp : t.pad side = .ok r) :
    r.Every IsAttainable := by
  induction t generalizing r with
  | leaf cls m => exact (padStep_of_pad hp).attainable h fun _ _ hin => nomatch hin
  | sequence parts m ih =>
    apply (padStep_of_pad hp).attainable h
    intro u v hin
    obtain ⟨parts', hend, rfl⟩ := hin
    have hs : ∀ t ∈ parts, t.Every IsAttainable := (every_iff.mp h).2
    refine (every_attainable_ofParts fun u' hu' => ?_).attainable_rebuilt u
    rcases hend.mem hu' with hmem | ⟨c, hmem, hc⟩
    · exact hs u' hmem
    · exact ih c hmem (hs c hmem) hc
  | choice members m ih =>
    apply (padStep_of_pad hp).attainable h
    intro u v hin
    obtain ⟨members', hall, rfl⟩ := hin
    have hs : ∀ t ∈ members, t.Every IsAttainable := (every_iff.mp h).2
    refine (every_attainable_ofMembers fun u' hu' => ?_).attainable_rebuilt u
    obtain ⟨t, ht, htu⟩ := exists_left_of_mem hall hu'
    exact ih t ht (hs t ht) htu

/-- Completing a tree keeps its numbers of occurrences such that they can be counted. -/
theorem attainable_of_completed {options : Options} (h : t.Every IsAttainable)
    (hc : t.completed options = .ok r) : r.Every IsAttainable := by
  unfold completed at hc
  split at hc
  · obtain rfl := Except.ok.inj hc
    exact h.attainable_pinned _
  · simp only [padBoth, bind_eq_ok] at hc
    obtain ⟨u, hu, hr⟩ := hc
    exact attainable_of_pad (attainable_of_pad h hu) hr

/-! ## Complements -/

theorem every_attainable_leaf {cls : CharClass} {m : Mark} : (leaf cls m).Every IsAttainable :=
  .node _ trivial (by simp [children])

theorem attainable_of_mem_derivations {alphabet : Alphabet} (h : r ∈ t.derivations alphabet) :
    r.Every IsAttainable := by
  rcases leaf_or_empty_of_mem_derivations h with ⟨cls, m, rfl⟩ | rfl
  · exact every_attainable_leaf
  · exact every_attainable_ofParts (by simp)

theorem attainable_of_complement? {alphabet : Alphabet} {anchored : Bool}
    (h : t.complement? alphabet anchored = some r) : r.Every IsAttainable := by
  obtain ⟨-, tree, htree, rfl⟩ := of_complement? h
  apply Every.attainable_pinned
  cases htree with
  | text => exact every_attainable_leaf
  | derivation hmem => exact attainable_of_mem_derivations hmem
  | derivations => exact every_attainable_ofMembers fun _ hu => attainable_of_mem_derivations hu

end Tree

/-! ## Generators -/

namespace Generator

/-- The generator has been compiled from a pattern, or is the complement of such a generator, or of
a complement, and so on. -/
inductive Arises : Generator → Prop where
  | compiled {options : Options} {pattern : String} {c : Compiled} :
    compile options pattern = .ok c → Arises c.generator
  | complement {g c : Generator} : Arises g → g.notMatching? = some c → Arises c

theorem Arises.attainable {g : Generator} (h : g.Arises) : g.root.Every Tree.IsAttainable := by
  cases h with
  | compiled hc =>
    obtain ⟨hparse, hroot, -, -⟩ := of_compile hc
    exact Tree.attainable_of_completed (Pattern.built_of_parse hparse).attainable hroot
  | complement _ hc =>
    obtain ⟨root, hroot, rfl⟩ := Option.map_eq_some_iff.mp hc
    exact Tree.attainable_of_complement? hroot

/-- What is generated is described by the tree of the generator. -/
theorem mem_language_of_generate {σ : Type} {g : Generator} {source : RandomSource σ}
    {target : Extent} {s s' : σ} {text : String} (h : g.generate source target s = .ok text s') :
    text.toList ∈ g.root.language (.drawn g.options.alphabet) :=
  Tree.mem_language_of_search (generate_eq_ok.mp ⟨s', h⟩)

/-- A generator produces just the strings that its tree describes: whatever it produces is one of
them and has a length in the range, and each of them that has can be produced. -/
theorem generate_exact {g : Generator} (hg : g.Arises) {target : Extent}
    (ht : target.least < unbounded) :
    (∀ {σ : Type} (source : RandomSource σ) (s s' : σ) (text : String),
      g.generate source target s = .ok text s' →
        text.toList ∈ g.root.language (.drawn g.options.alphabet) ∧ text.length ∈ target) ∧
    (∀ text : String, text.toList ∈ g.root.language (.drawn g.options.alphabet) →
      text.length < unbounded → text.length ∈ target →
        ∃ (σ : Type) (source : RandomSource σ) (s s' : σ),
          g.generate source target s = .ok text s') := by
  constructor
  · intro σ source s s' text h
    exact Tree.search_sound ht (generate_eq_ok.mp ⟨s', h⟩)
  · intro text htext hsmall hlength
    obtain ⟨answers, h⟩ := Tree.search_complete hg.attainable htext hsmall hlength
    obtain ⟨s', h⟩ := generate_eq_ok.mpr h
    exact ⟨_, _, answers, s', h⟩

/-- `^(?:ab|c){2,3}$` describes `cabab`, where three occurrences of different lengths follow each
other, and produces it. -/
theorem generate_exact_repeated : ∃ c, compile {} "^(?:ab|c){2,3}$" = .ok c ∧
    c.generator.Arises ∧ (Extent.exactly 5).least < unbounded ∧
      "cabab".toList ∈ c.generator.root.language (.drawn c.generator.options.alphabet) ∧
        ∃ (σ : Type) (source : RandomSource σ) (s s' : σ),
          c.generator.generate source (.exactly 5) s = .ok "cabab" s' := by
  obtain ⟨c, hc, htest⟩ := exists_of_compile
    (show ((compile {} "^(?:ab|c){2,3}$").toOption.any fun c =>
      decide ((c.generator.search Script.source (.exactly 5) ⟨#[1], 0⟩).1.result.toOption =
        some "cabab".toList)) = true by decide +kernel)
  obtain ⟨s', h⟩ := exists_of_search_eq (of_decide_eq_true htest)
  have hg : c.generator.Arises := .compiled hc
  have ht : (Extent.exactly 5).least < unbounded := by decide
  obtain ⟨hsound, hcomplete⟩ := generate_exact hg ht
  obtain ⟨hmem, -⟩ := hsound Script.source _ s' "cabab" h
  exact ⟨c, hc, hg, ht, hmem, hcomplete "cabab" hmem (by decide) (by decide)⟩

end Generator

end Exemplar
