import Exemplar.Proofs.Counts
import Exemplar.Proofs.Lists
import Exemplar.Proofs.Nodes
import Mathlib.Computability.Language

/-!
# The language of a tree

A tree describes a language: a leaf the strings of so many characters of its class, a sequence the
concatenations of what its parts describe, a choice the union of what its members describe, and
each of them so many times over. Counts are taken without a limit here: an upper end at `unbounded`
allows any number of occurrences.

What a class stands for is a parameter. Strings are drawn from an alphabet, and matched with all
characters that there are.

## Main definitions

* `Meaning`: the characters that each class stands for, with `Meaning.drawn` and
  `Meaning.accepted`
* `Tree.language`: the strings that a tree describes

## Main results

* `Tree.length_admits`: the lengths of a tree are those of its strings
-/

namespace Exemplar

/-- The characters that each class stands for. -/
abbrev Meaning := CharClass → Set Char

namespace Meaning

/-- The characters that a class is drawn from in an alphabet. -/
def drawn (alphabet : Alphabet) : Meaning := fun cls => {c | c ∈ cls.resolve alphabet}

/-- All characters that a class matches. -/
def accepted : Meaning := fun cls => {c | cls.accepts c = true}

@[simp] theorem mem_drawn {alphabet : Alphabet} {cls : CharClass} {c : Char} :
    c ∈ drawn alphabet cls ↔ c ∈ cls.resolve alphabet := Iff.rfl

@[simp] theorem mem_accepted {cls : CharClass} {c : Char} :
    c ∈ accepted cls ↔ cls.accepts c = true := Iff.rfl

/-- A class is drawn from characters that it matches. -/
theorem drawn_subset_accepted (alphabet : Alphabet) (cls : CharClass) :
    drawn alphabet cls ⊆ accepted cls := by
  intro c hc
  cases cls with
  | anyOf set => exact CharSet.contains_iff.mpr hc
  | noneOf set => simpa [CharClass.accepts, ← CharSet.contains_iff] using (CharSet.mem_diff.mp hc).2
  | dot => simpa [CharClass.accepts, ← CharSet.contains_iff] using (CharSet.mem_diff.mp hc).2

end Meaning

/-- The strings that are put together from so many strings of a language. -/
def Extent.repeated (e : Extent) (l : Language Char) : Language Char :=
  {w | ∃ n, e.Admits n ∧ w ∈ l ^ n}

/-- Repeated strings are cut up into an allowed number of pieces, each one of the strings. -/
theorem Extent.mem_repeated {e : Extent} {l : Language Char} {w : List Char} :
    w ∈ e.repeated l ↔
      ∃ ws : List (List Char), e.Admits ws.length ∧ (∀ x ∈ ws, x ∈ l) ∧ w = ws.flatten := by
  constructor
  · rintro ⟨n, hn, hw⟩
    obtain ⟨ws, rfl, rfl, hws⟩ := Language.mem_pow.mp hw
    exact ⟨ws, hn, hws, rfl⟩
  · rintro ⟨ws, hn, hws, rfl⟩
    exact ⟨ws.length, hn, Language.mem_pow.mpr ⟨ws, rfl, rfl, hws⟩⟩

namespace Tree

variable {M : Meaning}

mutual

/-- The strings that the tree describes. -/
def language (M : Meaning) : Tree → Language Char
  | leaf cls m => {w | m.occurs.Admits w.length ∧ ∀ c ∈ w, c ∈ M cls}
  | sequence parts m => m.occurs.repeated (languageOfParts M parts)
  | choice members m => m.occurs.repeated (languageOfMembers M members)

/-- The strings that the trees describe one after the other. -/
def languageOfParts (M : Meaning) : List Tree → Language Char
  | [] => 1
  | t :: ts => t.language M * languageOfParts M ts

/-- The strings that one of the trees describes. -/
def languageOfMembers (M : Meaning) : List Tree → Language Char
  | [] => 0
  | t :: ts => t.language M + languageOfMembers M ts

end

theorem mem_language_leaf {cls : CharClass} {m : Mark} {w : List Char} :
    w ∈ (leaf cls m).language M ↔ m.occurs.Admits w.length ∧ ∀ c ∈ w, c ∈ M cls := by
  rw [language]
  rfl

/-- What trees in a row describe is cut up into a piece for each of them. -/
theorem mem_languageOfParts {ts : List Tree} {w : List Char} :
    w ∈ languageOfParts M ts ↔
      ∃ ws, List.Forall₂ (fun t x => x ∈ t.language M) ts ws ∧ w = ws.flatten := by
  induction ts generalizing w with
  | nil => simp [languageOfParts]
  | cons t ts ih =>
    rw [languageOfParts, Language.mem_mul]
    constructor
    · rintro ⟨x, hx, y, hy, rfl⟩
      obtain ⟨ws, hws, rfl⟩ := ih.mp hy
      exact ⟨x :: ws, .cons hx hws, rfl⟩
    · rintro ⟨_, h, rfl⟩
      cases h with
      | cons hx hws => exact ⟨_, hx, _, ih.mpr ⟨_, hws, rfl⟩, rfl⟩

theorem mem_languageOfMembers {ts : List Tree} {w : List Char} :
    w ∈ languageOfMembers M ts ↔ ∃ t ∈ ts, w ∈ t.language M := by
  induction ts with
  | nil => simp [languageOfMembers]
  | cons t ts ih => simp [languageOfMembers, Language.mem_add, ih]

/-! ### Children that are replaced -/

section Map

variable {f : Tree → Tree} {ts : List Tree} (h : ∀ t ∈ ts, (f t).language M = t.language M)

include h

/-- Parts may be replaced by others that describe the same strings. -/
theorem languageOfParts_map : languageOfParts M (ts.map f) = languageOfParts M ts := by
  induction ts with
  | nil => rfl
  | cons t ts ih =>
    rw [List.forall_mem_cons] at h
    rw [List.map_cons, languageOfParts, languageOfParts, h.1, ih h.2]

/-- Members may be replaced by others that describe the same strings. -/
theorem languageOfMembers_map : languageOfMembers M (ts.map f) = languageOfMembers M ts := by
  induction ts with
  | nil => rfl
  | cons t ts ih =>
    rw [List.forall_mem_cons] at h
    rw [List.map_cons, languageOfMembers, languageOfMembers, h.1, ih h.2]

end Map

/-! ### Lengths -/

theorem length_leaf (cls : CharClass) (m : Mark) : (leaf cls m).length = m.occurs := by
  have hl := m.occurs.least_le_most
  have hm := m.occurs.most_le_unbounded
  ext <;> simp only [length, Extent.once, Extent.least_mul, Extent.most_mul, cappedMul] <;> omega

/-- The lengths of repeated strings are those of one string, taken as often as it is repeated. -/
theorem length_admits_repeated {occurs once : Extent} {l : Language Char} {w : List Char}
    (h : ∀ x ∈ l, once.Admits x.length) (hw : w ∈ occurs.repeated l) :
    (occurs.mul once).Admits w.length := by
  obtain ⟨ws, hn, hws, rfl⟩ := Extent.mem_repeated.mp hw
  rw [List.length_flatten]
  apply Extent.admits_mul (by rwa [List.length_map])
  intro n hn
  obtain ⟨x, hx, rfl⟩ := List.mem_map.mp hn
  exact h x (hws x hx)

theorem length_admits_parts {ts : List Tree}
    (h : ∀ t ∈ ts, ∀ x ∈ t.language M, t.length.Admits x.length) {w : List Char}
    (hw : w ∈ languageOfParts M ts) : (Extent.sumAll (lengths ts)).Admits w.length := by
  obtain ⟨ws, hws, rfl⟩ := mem_languageOfParts.mp hw
  rw [List.length_flatten, lengths_eq_map]
  apply Extent.admits_sumAll
  rw [List.forall₂_map_left_iff, List.forall₂_map_right_iff]
  exact forall₂_imp_of_mem (fun t ht x hx => h t ht x hx) hws

theorem length_admits_members {ts : List Tree}
    (h : ∀ t ∈ ts, ∀ x ∈ t.language M, t.length.Admits x.length) {w : List Char}
    (hw : w ∈ languageOfMembers M ts) : (Extent.hullAll (lengths ts)).Admits w.length := by
  obtain ⟨t, ht, hx⟩ := mem_languageOfMembers.mp hw
  rw [lengths_eq_map]
  exact Extent.admits_hullAll (List.mem_map_of_mem ht) (h t ht w hx)

/-- The lengths of a tree are those of the strings that it describes, whatever their size: the
bounds of a node are those of its children, taken as often as the node occurs. -/
theorem length_admits (t : Tree) {w : List Char} (hw : w ∈ t.language M) :
    t.length.Admits w.length := by
  induction t generalizing w with
  | leaf cls m =>
    rw [length_leaf]
    exact (mem_language_leaf.mp hw).1
  | sequence parts m ih =>
    rw [language] at hw
    exact length_admits_repeated (fun x hx => length_admits_parts (fun t ht x => ih t ht) hx) hw
  | choice members m ih =>
    rw [language] at hw
    exact length_admits_repeated (fun x hx => length_admits_members (fun t ht x => ih t ht) hx) hw

end Tree

end Exemplar
