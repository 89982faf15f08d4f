import Exemplar.Proofs.Language
import Exemplar.Proofs.Nodes
import Exemplar.Tree.Complement

/-!
# First characters

Every string that a tree describes begins with a character of a leading class, or is empty, which it
is only if the tree says so. A character of the alphabet that the complement takes for a wrong
beginning is accepted by no leading class.

## Main definitions

* `Tree.Begins`: a leaf stands for the character

## Main results

* `Tree.isNullable_of_mem`: a tree that describes the empty string
* `Tree.begins_leading_of_mem`: the first character of a string that a tree describes
* `Tree.not_begins_of_mem_mismatches`: wrong beginnings
-/

namespace Exemplar

variable {M : Meaning} {t : Tree} {c : Char} {w : List Char}

/-! ## Repetitions -/

theorem Extent.nil_mem_repeated {e : Extent} {l : Language Char} (h : [] ∈ e.repeated l) :
    e.least = 0 ∨ [] ∈ l := by
  obtain ⟨ws, hn, hws, hnil⟩ := Extent.mem_repeated.mp h
  cases ws with
  | nil => exact .inl (Nat.le_zero.mp hn.1)
  | cons x ws =>
    obtain rfl : x = [] := List.flatten_eq_nil_iff.mp hnil.symm x List.mem_cons_self
    exact .inr (hws [] List.mem_cons_self)

/-- The first piece that is not empty has the first character. -/
theorem exists_cons_of_flatten {ws : List (List Char)} (h : c :: w = ws.flatten) :
    ∃ x, c :: x ∈ ws := by
  induction ws with
  | nil => cases h
  | cons y ws ih =>
    cases y with
    | nil =>
      obtain ⟨x, hx⟩ := ih h
      exact ⟨x, List.mem_cons_of_mem _ hx⟩
    | cons d y =>
      obtain ⟨rfl, -⟩ := List.cons.inj h
      exact ⟨y, List.mem_cons_self⟩

/-- The first character of repeated strings is the first one of one of them. -/
theorem Extent.cons_mem_repeated {e : Extent} {l : Language Char} (h : c :: w ∈ e.repeated l) :
    e.most ≠ 0 ∧ ∃ x, c :: x ∈ l := by
  obtain ⟨ws, hn, hws, hcons⟩ := Extent.mem_repeated.mp h
  obtain ⟨x, hx⟩ := exists_cons_of_flatten hcons
  refine ⟨fun hmost => ?_, x, hws _ hx⟩
  rcases hn.2 with hopen | hle
  · rw [hmost] at hopen
    exact absurd hopen (by decide)
  · rw [hmost, Nat.le_zero] at hle
    rw [List.eq_nil_of_length_eq_zero hle] at hx
    cases hx

namespace Tree

/-! ## The empty string -/

/-- Parts that describe the empty string together are all nullable. -/
theorem allNullable_of_mem {ts : List Tree} (h : ∀ t ∈ ts, [] ∈ t.language M → t.isNullable = true)
    (hnil : [] ∈ languageOfParts M ts) : allNullable ts = true := by
  induction ts with
  | nil => rfl
  | cons t ts ih =>
    rw [languageOfParts, Language.mem_mul] at hnil
    obtain ⟨x, hx, y, hy, hxy⟩ := hnil
    obtain ⟨rfl, rfl⟩ := List.append_eq_nil_iff.mp hxy
    rw [List.forall_mem_cons] at h
    rw [allNullable, h.1 hx, ih h.2 hy, Bool.and_self]

/-- Of members that describe the empty string, some member is nullable. -/
theorem anyNullable_of_mem {ts : List Tree} (h : ∀ t ∈ ts, [] ∈ t.language M → t.isNullable = true)
    (hnil : [] ∈ languageOfMembers M ts) : anyNullable ts = true := by
  induction ts with
  | nil => cases hnil
  | cons t ts ih =>
    rw [languageOfMembers, Language.mem_add] at hnil
    rw [List.forall_mem_cons] at h
    rw [anyNullable, Bool.or_eq_true]
    exact hnil.imp h.1 (ih h.2)

/-- A tree that describes the empty string says so. -/
theorem isNullable_of_mem (h : [] ∈ t.language M) : t.isNullable = true := by
  induction t with
  | leaf cls m =>
    rw [mem_language_leaf] at h
    simpa [isNullable] using h.1.1
  | sequence parts m ih =>
    rw [isNullable, Bool.or_eq_true, decide_eq_true_eq]
    exact (Extent.nil_mem_repeated h).imp id (allNullable_of_mem ih)
  | choice members m ih =>
    rw [isNullable, Bool.or_eq_true, decide_eq_true_eq]
    exact (Extent.nil_mem_repeated h).imp id (anyNullable_of_mem ih)

/-! ## First characters -/

/-- Some of these leaves stands for the character. -/
def Begins (M : Meaning) (leaves : List Leaf) (c : Char) : Prop := ∃ l ∈ leaves, c ∈ M l.cls

theorem Begins.mono {ls ls' : List Leaf} (h : Begins M ls c) (hls : ls ⊆ ls') : Begins M ls' c := by
  obtain ⟨l, hl, hc⟩ := h
  exact ⟨l, hls hl, hc⟩

/-- The first character of what the parts describe is of a leading leaf. Past an empty part, it
comes from the parts behind. -/
theorem begins_of_parts {ts : List Tree}
    (h : ∀ t ∈ ts, ∀ x, c :: x ∈ t.language M → Begins M t.leading c)
    (hw : c :: w ∈ languageOfParts M ts) : Begins M (leadingOfParts ts) c := by
  induction ts with
  | nil =>
    rw [languageOfParts, Language.mem_one] at hw
    cases hw
  | cons t ts ih =>
    rw [languageOfParts, Language.mem_mul] at hw
    obtain ⟨x, hx, y, hy, hxy⟩ := hw
    rw [List.forall_mem_cons] at h
    rw [leadingOfParts]
    cases x with
    | nil =>
      rw [List.nil_append] at hxy
      rw [if_pos (isNullable_of_mem hx)]
      exact (ih h.2 (hxy ▸ hy)).mono (List.subset_append_right _ _)
    | cons d x =>
      obtain ⟨rfl, -⟩ := List.cons.inj hxy
      exact (h.1 x hx).mono (List.subset_append_left _ _)

/-- The first character of what the members describe is of a leading leaf of one of them. -/
theorem begins_of_members {ts : List Tree}
    (h : ∀ t ∈ ts, ∀ x, c :: x ∈ t.language M → Begins M t.leading c)
    (hw : c :: w ∈ languageOfMembers M ts) : Begins M (leadingOfMembers ts) c := by
  induction ts with
  | nil => cases hw
  | cons t ts ih =>
    rw [languageOfMembers, Language.mem_add] at hw
    rw [List.forall_mem_cons] at h
    rw [leadingOfMembers]
    rcases hw with hw | hw
    · exact (h.1 w hw).mono (List.subset_append_left _ _)
    · exact (ih h.2 hw).mono (List.subset_append_right _ _)

/-- A string that a tree describes begins with a character of a leading class. -/
theorem begins_leading_of_mem (h : c :: w ∈ t.language M) : Begins M t.leading c := by
  induction t generalizing w with
  | leaf cls m =>
    rw [mem_language_leaf, List.forall_mem_cons] at h
    have hmost : m.occurs.most ≠ 0 := by
      have := h.1.2
      rw [List.length_cons] at this
      simp only [unbounded] at this
      omega
    rw [leading, if_neg hmost]
    exact ⟨_, List.mem_singleton.mpr rfl, h.2.1⟩
  | sequence parts m ih =>
    obtain ⟨hmost, x, hx⟩ := Extent.cons_mem_repeated h
    rw [leading, if_neg hmost]
    exact begins_of_parts (fun t ht x => ih t ht) hx
  | choice members m ih =>
    obtain ⟨hmost, x, hx⟩ := Extent.cons_mem_repeated h
    rw [leading, if_neg hmost]
    exact begins_of_members (fun t ht x => ih t ht) hx

/-! ## Wrong beginnings -/

/-- A wrong beginning is excluded by every leading class that has to occur and is defined by what it
excludes: the candidates lie in the common part of these sets. -/
theorem mem_excluded_of_mem_mismatches {alphabet : Alphabet} (h : c ∈ t.mismatches alphabet)
    {l : Leaf} (hl : l ∈ t.required) {set : CharSet} (hset : l.cls.excluded? = some set) :
    c ∈ set := by
  have hmem : set ∈ t.required.filterMap (·.cls.excluded?) := List.mem_filterMap.mpr ⟨l, hl, hset⟩
  simp only [mismatches, CharSet.mem_filter, CharSet.mem_diff] at h
  obtain ⟨⟨hcandidate, -⟩, -⟩ := h
  split at hcandidate
  next hnil =>
    rw [hnil] at hmem
    cases hmem
  next first sets hcons =>
    rw [CharSet.mem_inter, CharSet.mem_foldl_inter] at hcandidate
    rw [hcons, List.mem_cons] at hmem
    rcases hmem with rfl | hmem
    · exact hcandidate.2.1
    · exact hcandidate.2.2 set hmem

theorem not_mem_included_of_mem_mismatches {alphabet : Alphabet} (h : c ∈ t.mismatches alphabet)
    {l : Leaf} (hl : l ∈ t.required) {set : CharSet} (hset : l.cls.included? = some set) :
    ¬ c ∈ set := by
  simp only [mismatches, CharSet.mem_filter, CharSet.mem_diff, CharSet.mem_unionAll,
    List.mem_filterMap] at h
  exact fun hc => h.1.2 ⟨set, ⟨l, hl, hset⟩, hc⟩

/-- No leading class accepts a character that is taken for a wrong beginning. Leaves that may be
missing are tested one by one, the others by their sets. -/
theorem not_begins_of_mem_mismatches {alphabet : Alphabet} (h : c ∈ t.mismatches alphabet) :
    ¬ Begins .accepted t.leading c := by
  rintro ⟨l, hl, hc⟩
  rw [Meaning.mem_accepted] at hc
  rcases Nat.eq_zero_or_pos l.occurs.least with hleast | hleast
  · have hmem : l ∈ t.dispensable := by simp [dispensable, hl, hleast]
    simp only [mismatches, CharSet.mem_filter, Bool.not_eq_true', List.any_eq_false] at h
    exact h.2 l hmem hc
  · have hmem : l ∈ t.required := by simp [required, hl, hleast]
    have hin {set : CharSet} (hset : l.cls.included? = some set) : ¬ c ∈ set :=
      not_mem_included_of_mem_mismatches h hmem hset
    have hout {set : CharSet} (hset : l.cls.excluded? = some set) : c ∈ set :=
      mem_excluded_of_mem_mismatches h hmem hset
    cases hcls : l.cls with
    | anyOf set =>
      rw [hcls] at hin hc
      exact hin rfl (CharSet.contains_iff.mp hc)
    | noneOf set =>
      rw [hcls] at hout hc
      simp [CharClass.accepts, CharSet.contains_iff.mpr (hout rfl)] at hc
    | dot =>
      rw [hcls] at hout hc
      simp [CharClass.accepts, CharSet.contains_iff.mpr (hout rfl)] at hc

end Tree

end Exemplar
