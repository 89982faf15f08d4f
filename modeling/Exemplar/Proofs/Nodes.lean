import Exemplar.Tree.Basic

/-!
# The nodes of a tree

Some properties of a tree are properties of all its nodes. They are read off the constructions: what
a construction does to the topmost node, and that it leaves the nodes below alone.

## Main definitions

* `Tree.Every P t`: all nodes of `t`, seen as trees of their own, satisfy `P`
* `Tree.HasNode t u`: `u` is one of these nodes

## Main results

* `Tree.induct`: induction on trees, with lists of parts and members
-/

namespace Exemplar.Tree

/-- Induction on trees: the parts of a sequence and the members of a choice come first. -/
@[induction_eliminator] theorem induct {P : Tree → Prop} (leaf : ∀ cls m, P (leaf cls m))
    (sequence : ∀ parts m, (∀ t ∈ parts, P t) → P (sequence parts m))
    (choice : ∀ members m, (∀ t ∈ members, P t) → P (choice members m)) (t : Tree) : P t :=
  Tree.rec (motive_1 := P) (motive_2 := fun ts => ∀ t ∈ ts, P t) leaf sequence choice
    (fun _ h => absurd h List.not_mem_nil)
    (fun _ _ ht hts _ h => (List.mem_cons.mp h).elim (fun e => e ▸ ht) (hts _)) t

/-- The parts of a sequence, or the members of a choice. -/
def children : Tree → List Tree
  | leaf _ _ => []
  | sequence parts _ => parts
  | choice members _ => members

/-- Induction on trees where the kind of node does not matter. -/
theorem inductChildren {P : Tree → Prop} (node : ∀ t, (∀ c ∈ t.children, P c) → P t) (t : Tree) :
    P t := by
  induction t with
  | leaf cls m => exact node _ fun c hc => absurd hc List.not_mem_nil
  | sequence parts m ih => exact node _ ih
  | choice members m ih => exact node _ ih

/-- All nodes of the tree satisfy `P`. -/
inductive Every (P : Tree → Prop) : Tree → Prop where
  | node (t : Tree) : P t → (∀ u ∈ t.children, Every P u) → Every P t

variable {P : Tree → Prop} {t : Tree}

theorem every_iff : t.Every P ↔ P t ∧ ∀ u ∈ t.children, u.Every P := by
  constructor
  · rintro ⟨_, h, hs⟩
    exact ⟨h, hs⟩
  · rintro ⟨h, hs⟩
    exact .node t h hs

@[simp] theorem children_withMark (t : Tree) (m : Mark) : (t.withMark m).children = t.children := by
  cases t <;> rfl

@[simp] theorem mark_withMark (t : Tree) (m : Mark) : (t.withMark m).mark = m := by
  cases t <;> rfl

/-- Putting another mark on the topmost node leaves the nodes below alone. -/
theorem Every.withMark (h : t.Every P) {m : Mark} (hm : P (t.withMark m)) :
    (t.withMark m).Every P := by
  rw [every_iff, children_withMark]
  exact ⟨hm, (every_iff.mp h).2⟩

section Decidable

variable [DecidablePred P]

mutual

/-- Checks all nodes of the tree. -/
def checkEvery (P : Tree → Prop) [DecidablePred P] : Tree → Bool
  | leaf cls m => decide (P (leaf cls m))
  | sequence parts m => decide (P (sequence parts m)) && checkEveryOf P parts
  | choice members m => decide (P (choice members m)) && checkEveryOf P members

/-- Checks all nodes of the trees. -/
def checkEveryOf (P : Tree → Prop) [DecidablePred P] : List Tree → Bool
  | [] => true
  | t :: ts => checkEvery P t && checkEveryOf P ts

end

theorem checkEveryOf_eq_all (ts : List Tree) : checkEveryOf P ts = ts.all (checkEvery P) := by
  induction ts with
  | nil => rfl
  | cons t ts ih => rw [checkEveryOf, ih, List.all_cons]

/-- The check of every node tells whether every node has the property. -/
theorem checkEvery_iff : checkEvery P t = true ↔ t.Every P := by
  induction t with
  | leaf cls m =>
    rw [every_iff, checkEvery, decide_eq_true_iff]
    exact ⟨fun h => ⟨h, fun _ hu => absurd hu List.not_mem_nil⟩, And.left⟩
  | sequence parts m ih =>
    rw [every_iff, checkEvery, checkEveryOf_eq_all, Bool.and_eq_true, decide_eq_true_iff,
      List.all_eq_true]
    exact and_congr_right fun _ => forall₂_congr ih
  | choice members m ih =>
    rw [every_iff, checkEvery, checkEveryOf_eq_all, Bool.and_eq_true, decide_eq_true_iff,
      List.all_eq_true]
    exact and_congr_right fun _ => forall₂_congr ih

instance : DecidablePred (Every P) := fun _ => decidable_of_iff _ checkEvery_iff

end Decidable

/-- The tree `u` is a node of the tree. -/
inductive HasNode : Tree → Tree → Prop where
  | top (t : Tree) : HasNode t t
  | inside {t c u : Tree} : c ∈ t.children → HasNode c u → HasNode t u

/-- Every node has the property just if each node that there is has it. -/
theorem every_iff_hasNode : t.Every P ↔ ∀ u, t.HasNode u → P u := by
  constructor
  · intro h u hu
    induction hu with
    | top t => exact (every_iff.mp h).1
    | inside hc _ ih => exact ih ((every_iff.mp h).2 _ hc)
  · intro h
    induction t using inductChildren with
    | node t ih => exact .node t (h t (.top t)) fun c hc => ih c hc fun u hu => h u (.inside hc hu)

end Exemplar.Tree
