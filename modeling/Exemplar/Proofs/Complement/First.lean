import Exemplar.Proofs.Complement.Leading
import Exemplar.Proofs.Lengths

/-!
# First characters are exact

What a tree says of the empty string and of first characters is not only safe, but exact. A tree
that says so describes the empty string, and its least length is zero. Where the leaves that may
occur have characters, every character of a leading class is the first one of some string: the parts
in front of the leaf may be empty, and for the parts behind it there are strings.

## Main results

* `Tree.isNullable_iff`, `Tree.isNullable_iff_least`: the empty string
* `Tree.exists_cons_of_leading`: the characters of leading classes
* `Generator.leading_exact`: both, for the tree of a generator
-/

namespace Exemplar

variable {M : Meaning} {t : Tree} {c : Char} {x : List Char}

/-! ## Repetitions -/

theorem Extent.nil_mem_repeated_of {e : Extent} {l : Language Char} (h : e.least = 0 ∨ [] ∈ l) :
    [] ∈ e.repeated l := by
  refine Extent.mem_repeated.mpr ⟨List.replicate e.least [], ?_, fun y hy => ?_, ?_⟩
  · rw [List.length_replicate]
    exact e.admits_least
  · obtain ⟨hne, rfl⟩ := List.mem_replicate.mp hy
    exact h.resolve_left hne
  · rw [List.flatten_replicate_nil]

/-- What may occur may occur at least once. -/
theorem Extent.exists_admits_succ {e : Extent} (h : e.most ≠ 0) : ∃ k, e.Admits (k + 1) := by
  have := e.least_le_most
  refine ⟨e.least - 1, ?_, ?_⟩
  · omega
  · exact .inr (by omega)

theorem Extent.cons_mem_repeated_of {e : Extent} {l : Language Char} (hmost : e.most ≠ 0)
    (h : c :: x ∈ l) : ∃ w, c :: w ∈ e.repeated l := by
  obtain ⟨k, hk⟩ := exists_admits_succ hmost
  refine ⟨x ++ (List.replicate k (c :: x)).flatten, Extent.mem_repeated.mpr
    ⟨List.replicate (k + 1) (c :: x), ?_, fun y hy => ?_, ?_⟩⟩
  · rwa [List.length_replicate]
  · rwa [List.eq_of_mem_replicate hy]
  · rw [List.replicate_succ, List.flatten_cons, List.cons_append]

namespace Tree

/-! ## The empty string -/

theorem nil_mem_parts {ts : List Tree} (h : ∀ t ∈ ts, t.isNullable = true → [] ∈ t.language M)
    (hall : allNullable ts = true) : [] ∈ languageOfParts M ts := by
  induction ts with
  | nil => exact Language.nil_mem_one
  | cons t ts ih =>
    rw [List.forall_mem_cons] at h
    rw [allNullable, Bool.and_eq_true] at hall
    exact Language.append_mem_mul (h.1 hall.1) (ih h.2 hall.2)

theorem nil_mem_members {ts : List Tree} (h : ∀ t ∈ ts, t.isNullable = true → [] ∈ t.language M)
    (hany : anyNullable ts = true) : [] ∈ languageOfMembers M ts := by
  induction ts with
  | nil => cases hany
  | cons t ts ih =>
    rw [List.forall_mem_cons] at h
    rw [anyNullable, Bool.or_eq_true] at hany
    exact hany.imp h.1 (ih h.2)

/-- A tree says whether it describes the empty string, whatever its classes stand for. -/
theorem isNullable_iff : t.isNullable = true ↔ [] ∈ t.language M := by
  refine ⟨fun h => ?_, isNullable_of_mem⟩
  induction t with
  | leaf cls m =>
    rw [isNullable, decide_eq_true_eq] at h
    exact mem_language_leaf.mpr ⟨⟨h.le, .inr (Nat.zero_le _)⟩, by simp⟩
  | sequence parts m ih =>
    rw [isNullable, Bool.or_eq_true, decide_eq_true_eq] at h
    exact Extent.nil_mem_repeated_of (h.imp_right (nil_mem_parts ih))
  | choice members m ih =>
    rw [isNullable, Bool.or_eq_true, decide_eq_true_eq] at h
    exact Extent.nil_mem_repeated_of (h.imp_right (nil_mem_members ih))

/-- A tree describes the empty string just if its least length is zero. The least length is attained
if the classes stand for all characters. -/
theorem isNullable_iff_least (h : t.Every HasMembers) :
    t.isNullable = true ↔ t.length.least = 0 := by
  have hchars : t.Every (HasChars fun _ => Set.univ) := every_iff_hasNode.mpr fun u _ => by
    cases u with
    | leaf cls m => exact fun _ => Set.univ_nonempty
    | sequence => trivial
    | choice => trivial
  rw [isNullable_iff (M := fun _ => Set.univ)]
  constructor
  · intro hnil
    exact Nat.le_zero.mp (length_admits t hnil).1
  · intro hzero
    obtain ⟨w, hw, hlen⟩ := (attains_length hchars h).1
    have : w.length = 0 := by
      rw [hzero] at hlen
      simp only [unbounded] at hlen
      omega
    rwa [List.eq_nil_of_length_eq_zero this] at hw

/-! ## First characters -/

/-- A character of a leading leaf of the parts is the first one of some string of theirs; whatever
the parts behind describe may follow it. -/
theorem exists_cons_of_parts {ts : List Tree} {l : Leaf}
    (hsome : ∀ t ∈ ts, Attains (t.language M) t.length.least)
    (h : ∀ t ∈ ts, l ∈ t.leading → ∃ w, c :: w ∈ t.language M) (hl : l ∈ leadingOfParts ts) :
    ∃ w, c :: w ∈ languageOfParts M ts := by
  induction ts with
  | nil => cases hl
  | cons t ts ih =>
    rw [List.forall_mem_cons] at hsome h
    rw [leadingOfParts, List.mem_append] at hl
    rcases hl with hl | hl
    · obtain ⟨w, hw⟩ := h.1 hl
      obtain ⟨v, hv, -⟩ := attains_parts hsome.2
      exact ⟨w ++ v, Language.append_mem_mul hw hv⟩
    · split at hl
      next hnull =>
        obtain ⟨w, hw⟩ := ih hsome.2 h.2 hl
        exact ⟨w, Language.append_mem_mul (isNullable_iff.mp hnull) hw⟩
      next => cases hl

/-- A character of a leading leaf of the members is the first one of some string of a member. -/
theorem exists_cons_of_members {ts : List Tree} {l : Leaf}
    (h : ∀ t ∈ ts, l ∈ t.leading → ∃ w, c :: w ∈ t.language M) (hl : l ∈ leadingOfMembers ts) :
    ∃ w, c :: w ∈ languageOfMembers M ts := by
  induction ts with
  | nil => cases hl
  | cons t ts ih =>
    rw [List.forall_mem_cons] at h
    rw [leadingOfMembers, List.mem_append] at hl
    rcases hl with hl | hl
    · obtain ⟨w, hw⟩ := h.1 hl
      exact ⟨w, .inl hw⟩
    · obtain ⟨w, hw⟩ := ih h.2 hl
      exact ⟨w, .inr hw⟩

/-- Every character of a leading class is the first one of some string. A leaf repeats the character
as often as it occurs. -/
theorem exists_cons_of_leading (hchars : t.Every (HasChars M)) (hmembers : t.Every HasMembers)
    {l : Leaf} (hl : l ∈ t.leading) (hc : c ∈ M l.cls) : ∃ w, c :: w ∈ t.language M := by
  induction t with
  | leaf cls m =>
    rw [leading] at hl
    split at hl
    next => cases hl
    next hmost =>
      obtain rfl := List.mem_singleton.mp hl
      obtain ⟨k, hk⟩ := Extent.exists_admits_succ hmost
      refine ⟨List.replicate k c, mem_language_leaf.mpr ⟨?_, ?_⟩⟩
      · rwa [List.length_cons, List.length_replicate]
      · rw [← List.replicate_succ]
        exact fun d hd => List.eq_of_mem_replicate hd ▸ hc
  | sequence parts m ih =>
    have hparts := (every_iff.mp hchars).2
    have hmembers := (every_iff.mp hmembers).2
    rw [leading] at hl
    split at hl
    next => cases hl
    next hmost =>
      obtain ⟨w, hw⟩ := exists_cons_of_parts
        (fun t ht => (attains_length (hparts t ht) (hmembers t ht)).1)
        (fun t ht => ih t ht (hparts t ht) (hmembers t ht)) hl
      exact Extent.cons_mem_repeated_of hmost hw
  | choice members m ih =>
    rw [leading] at hl
    split at hl
    next => cases hl
    next hmost =>
      obtain ⟨w, hw⟩ := exists_cons_of_members
        (fun t ht => ih t ht ((every_iff.mp hchars).2 t ht) ((every_iff.mp hmembers).2 t ht)) hl
      exact Extent.cons_mem_repeated_of hmost hw

end Tree

/-! ## Generators -/

namespace Generator

/-- The tree of a generator says exactly whether it describes the empty string, which it does just
if its least length is zero. Every other string begins with a character of a leading class. If the
leaves that may occur have characters, every character of a leading class is the first one of some
string. -/
theorem leading_exact {g : Generator} (hg : g.Arises) (alphabet : Alphabet) :
    let l := g.root.language (.drawn alphabet)
    (g.root.isNullable = true ↔ [] ∈ l) ∧
    (g.root.isNullable = true ↔ g.length.least = 0) ∧
    (∀ c w, c :: w ∈ l → ∃ leaf ∈ g.root.leading, c ∈ leaf.cls.resolve alphabet) ∧
    (g.root.Every (Tree.HasChars (.drawn alphabet)) →
      ∀ leaf ∈ g.root.leading, ∀ c ∈ leaf.cls.resolve alphabet, ∃ w, c :: w ∈ l) :=
  ⟨Tree.isNullable_iff, Tree.isNullable_iff_least hg.hasMembers,
    fun _ _ hw => Tree.begins_leading_of_mem hw,
    fun hchars _ hl _ hc => Tree.exists_cons_of_leading hchars hg.hasMembers hl hc⟩

/-- The strings of `^a?(?:b|c)$` are not empty, and some of them begin with the leading class behind
the part that may be missing. -/
theorem leading_exact_optional : ∃ c, compile {} "^a?(?:b|c)$" = .ok c ∧
    let l := c.generator.root.language (.drawn c.generator.options.alphabet)
    [] ∉ l ∧ ∃ w, 'b' :: w ∈ l := by
  obtain ⟨c, hc, htest⟩ := exists_of_compile
    (show ((compile {} "^a?(?:b|c)$").toOption.any fun c =>
      decide (c.generator.root.Every (Tree.HasChars (.drawn c.generator.options.alphabet)) ∧
        c.generator.root.isNullable = false ∧ ∃ leaf ∈ c.generator.root.leading,
          'b' ∈ leaf.cls.resolve c.generator.options.alphabet)) = true by decide +kernel)
  obtain ⟨hchars, hnull, leaf, hleaf, hb⟩ := of_decide_eq_true htest
  obtain ⟨hempty, -, -, hfirst⟩ := leading_exact (.compiled hc) c.generator.options.alphabet
  refine ⟨c, hc, fun hnil => ?_, hfirst hchars leaf hleaf 'b' hb⟩
  rw [hempty.mpr hnil] at hnull
  cases hnull

end Generator

end Exemplar
