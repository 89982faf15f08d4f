import Exemplar.Proofs.Language

/-!
# Derivations

The strings of a tree are derived from it: a number of occurrences is chosen, in each of them a
member of every choice, and a character at every leaf. A derivation is pinned to an end of the
string when the node is pinned there in all branches, or else when what it chose there is. So a
derivation knows more than its string, and a string may have derivations that are pinned and others
that are not.

## Main definitions

* `Derived`: the string of a derivation, and how the derivation is pinned
* `Tree.Derives`: the derivations from a tree

## Main results

* `Tree.mem_language`: a tree describes the strings that are derived from it
* `Tree.derives_iff_of_once`: derivations from a node that occurs once
* `Tree.Derives.mono`: larger classes allow more derivations
-/

namespace Exemplar

/-- What a derivation leads to. -/
structure Derived where
  text : List Char
  /-- The derivation is pinned to the beginning of the string. -/
  front : Bool
  /-- The derivation is pinned to the end of the string. -/
  back : Bool

namespace Derived

/-- Whether the derivation is pinned at the side. -/
def on (d : Derived) : Side → Bool
  | .front => d.front
  | .back => d.back

/-- A single character, pinned nowhere. -/
def char (c : Char) : Derived := ⟨[c], false, false⟩

/-- Derivations one after the other: pinned as the first one is at the front and as the last one is
at the back. -/
def join (ds : List Derived) : Derived where
  text := (ds.map text).flatten
  front := ds.head?.any front
  back := ds.getLast?.any back

/-- The derivation where the node is pinned itself. -/
def pinned (pins : Pins) (d : Derived) : Derived where
  text := d.text
  front := pins.front.inAll || d.front
  back := pins.back.inAll || d.back

@[ext] theorem ext_on {d e : Derived} (ht : d.text = e.text) (hs : ∀ side, d.on side = e.on side) :
    d = e := by
  have hf := hs .front
  have hb := hs .back
  cases d
  cases e
  simp_all [on]

@[simp] theorem text_pinned (pins : Pins) (d : Derived) : (d.pinned pins).text = d.text := rfl

@[simp] theorem on_pinned (pins : Pins) (d : Derived) (side : Side) :
    (d.pinned pins).on side = ((pins.on side).inAll || d.on side) := by
  cases side <;> rfl

@[simp] theorem text_char (c : Char) : (char c).text = [c] := rfl

@[simp] theorem on_char (c : Char) (side : Side) : (char c).on side = false := by
  cases side <;> rfl

@[simp] theorem text_join (ds : List Derived) : (join ds).text = (ds.map text).flatten := rfl

@[simp] theorem join_nil_on (side : Side) : (join []).on side = false := by
  cases side <;> rfl

@[simp] theorem join_singleton (d : Derived) : join [d] = d := by
  ext side
  · simp
  · cases side <;> simp [on, join]

end Derived

/-- So many derivations of a single occurrence, one after the other, pinned as the node is. -/
def Mark.Repeats (m : Mark) (once : Derived → Prop) (d : Derived) : Prop :=
  ∃ ds, m.occurs.Admits ds.length ∧ (∀ e ∈ ds, once e) ∧ d = (Derived.join ds).pinned m.pins

namespace Tree

variable {M N : Meaning}

mutual

/-- The derivations of a single occurrence of a node, but for how the node is pinned itself. -/
def DerivesOnce (M : Meaning) : Tree → Derived → Prop
  | leaf cls _, e => ∃ c ∈ M cls, e = .char c
  | sequence parts _, e => ∃ es, DerivesEach M parts es ∧ e = .join es
  | choice members _, e => DerivesAny M members e

/-- A derivation from each of the trees. -/
def DerivesEach (M : Meaning) : List Tree → List Derived → Prop
  | [], ds => ds = []
  | t :: ts, ds => ∃ d es, t.mark.Repeats (DerivesOnce M t) d ∧ DerivesEach M ts es ∧ ds = d :: es

/-- A derivation from one of the trees. -/
def DerivesAny (M : Meaning) : List Tree → Derived → Prop
  | [], _ => False
  | t :: ts, e => t.mark.Repeats (DerivesOnce M t) e ∨ DerivesAny M ts e

end

/-- The derivations from the tree. -/
def Derives (M : Meaning) (t : Tree) (d : Derived) : Prop := t.mark.Repeats (t.DerivesOnce M) d

/-- Trees in a row are derived one by one. -/
theorem derivesEach_iff {ts : List Tree} {ds : List Derived} :
    DerivesEach M ts ds ↔ List.Forall₂ (fun t d => t.Derives M d) ts ds := by
  induction ts generalizing ds with
  | nil => simp [DerivesEach]
  | cons t ts ih =>
    rw [DerivesEach]
    constructor
    · rintro ⟨d, es, hd, hes, rfl⟩
      exact .cons hd (ih.mp hes)
    · intro h
      cases h with
      | cons hd hes => exact ⟨_, _, hd, ih.mpr hes, rfl⟩

theorem derivesAny_iff {ts : List Tree} {e : Derived} :
    DerivesAny M ts e ↔ ∃ t ∈ ts, t.Derives M e := by
  induction ts with
  | nil => simp [DerivesAny]
  | cons t ts ih => simp [DerivesAny, ih, Derives]

theorem derivesOnce_leaf {cls : CharClass} {m : Mark} {e : Derived} :
    (leaf cls m).DerivesOnce M e ↔ ∃ c ∈ M cls, e = .char c := by
  rw [DerivesOnce]

theorem derivesOnce_sequence {parts : List Tree} {m : Mark} {e : Derived} :
    (sequence parts m).DerivesOnce M e ↔
      ∃ es, List.Forall₂ (fun t d => t.Derives M d) parts es ∧ e = .join es := by
  simp only [DerivesOnce, derivesEach_iff]

theorem derivesOnce_choice {members : List Tree} {m : Mark} {e : Derived} :
    (choice members m).DerivesOnce M e ↔ ∃ t ∈ members, t.Derives M e := by
  rw [DerivesOnce, derivesAny_iff]

/-- What a node is marked with makes no difference to its single occurrences. -/
@[simp] theorem derivesOnce_withMark {t : Tree} {m : Mark} {e : Derived} :
    (t.withMark m).DerivesOnce M e ↔ t.DerivesOnce M e := by
  cases t <;> simp only [withMark, DerivesOnce]

/-! ### Derivations and languages -/

/-- Repeated derivations have the strings that are cut up into as many pieces, each one derived: the
texts of the derivations are the pieces. -/
theorem exists_repeats_iff {m : Mark} {once : Derived → Prop} {l : Language Char}
    (h : ∀ w, w ∈ l ↔ ∃ e, once e ∧ e.text = w) {w : List Char} :
    (∃ d, m.Repeats once d ∧ d.text = w) ↔ w ∈ m.occurs.repeated l := by
  rw [Extent.mem_repeated]
  constructor
  · rintro ⟨d, ⟨ds, hn, hds, rfl⟩, rfl⟩
    refine ⟨ds.map Derived.text, by rwa [List.length_map], fun x hx => ?_, rfl⟩
    obtain ⟨e, he, rfl⟩ := List.mem_map.mp hx
    exact (h _).mpr ⟨e, hds e he, rfl⟩
  · rintro ⟨ws, hn, hws, rfl⟩
    have hds : ∃ ds : List Derived, (∀ e ∈ ds, once e) ∧ ds.map Derived.text = ws := by
      clear hn
      induction ws with
      | nil => exact ⟨[], by simp, rfl⟩
      | cons x ws ih =>
        rw [List.forall_mem_cons] at hws
        obtain ⟨e, he, rfl⟩ := (h x).mp hws.1
        obtain ⟨ds, hds, rfl⟩ := ih hws.2
        exact ⟨e :: ds, List.forall_mem_cons.mpr ⟨he, hds⟩, rfl⟩
    obtain ⟨ds, hds, rfl⟩ := hds
    rw [List.length_map] at hn
    exact ⟨_, ⟨ds, hn, hds, rfl⟩, rfl⟩

/-- The strings of a single character of the set. -/
def singles (s : Set Char) : Language Char := {w | ∃ c ∈ s, w = [c]}

/-- Repeated single characters make up the strings of these characters, of an allowed length. -/
theorem mem_repeated_singles {e : Extent} {s : Set Char} {w : List Char} :
    w ∈ e.repeated (singles s) ↔ e.Admits w.length ∧ ∀ c ∈ w, c ∈ s := by
  rw [Extent.mem_repeated]
  constructor
  · rintro ⟨ws, hn, hws, rfl⟩
    have hlen : ws.flatten.length = ws.length ∧ ∀ c ∈ ws.flatten, c ∈ s := by
      clear hn
      induction ws with
      | nil => simp
      | cons x ws ih =>
        rw [List.forall_mem_cons] at hws
        obtain ⟨⟨c, hc, rfl⟩, hws⟩ := hws
        simpa [(ih hws).1, hc] using (ih hws).2
    rw [hlen.1]
    exact ⟨hn, hlen.2⟩
  · rintro ⟨hn, hw⟩
    refine ⟨w.map ([·]), by rwa [List.length_map], fun x hx => ?_, by simp [← List.flatMap_def]⟩
    obtain ⟨c, hc, rfl⟩ := List.mem_map.mp hx
    exact ⟨c, hw c hc, rfl⟩

/-- A tree describes the strings that are derived from it. Each kind of node repeats what its
children derive, so the rule for repetitions serves all of them. -/
theorem mem_language {t : Tree} {w : List Char} :
    w ∈ t.language M ↔ ∃ d, t.Derives M d ∧ d.text = w := by
  induction t generalizing w with
  | leaf cls m =>
    rw [mem_language_leaf, ← mem_repeated_singles]
    refine (exists_repeats_iff fun w => ?_).symm
    simp only [derivesOnce_leaf]
    constructor
    · rintro ⟨c, hc, rfl⟩
      exact ⟨_, ⟨c, hc, rfl⟩, rfl⟩
    · rintro ⟨_, ⟨c, hc, rfl⟩, rfl⟩
      exact ⟨c, hc, rfl⟩
  | sequence parts m ih =>
    rw [language]
    refine (exists_repeats_iff fun w => ?_).symm
    simp only [derivesOnce_sequence, mem_languageOfParts]
    constructor
    · rintro ⟨ws, hws, rfl⟩
      obtain ⟨es, hes, rfl⟩ := exists_forall₂_map (fun t ht x => (ih t ht).mp) hws
      exact ⟨_, ⟨es, hes, rfl⟩, rfl⟩
    · rintro ⟨_, ⟨es, hes, rfl⟩, rfl⟩
      refine ⟨es.map Derived.text, ?_, rfl⟩
      rw [List.forall₂_map_right_iff]
      exact forall₂_imp_of_mem (fun t ht e he => (ih t ht).mpr ⟨e, he, rfl⟩) hes
  | choice members m ih =>
    rw [language]
    refine (exists_repeats_iff fun w => ?_).symm
    simp only [derivesOnce_choice, mem_languageOfMembers]
    constructor
    · rintro ⟨t, ht, hw⟩
      obtain ⟨d, hd, rfl⟩ := (ih t ht).mp hw
      exact ⟨d, ⟨t, ht, hd⟩, rfl⟩
    · rintro ⟨d, ⟨t, ht, hd⟩, rfl⟩
      exact ⟨t, ht, (ih t ht).mpr ⟨d, hd, rfl⟩⟩

/-! ### Larger classes -/

theorem repeats_mono {m : Mark} {P Q : Derived → Prop} (h : ∀ e, P e → Q e) {d : Derived}
    (hd : m.Repeats P d) : m.Repeats Q d := by
  obtain ⟨ds, hn, hds, rfl⟩ := hd
  exact ⟨ds, hn, fun e he => h e (hds e he), rfl⟩

/-- Where the classes stand for more characters, there are more derivations. -/
theorem Derives.mono (h : ∀ cls, M cls ⊆ N cls) {t : Tree} {d : Derived} (hd : t.Derives M d) :
    t.Derives N d := by
  induction t generalizing d with
  | leaf cls m =>
    refine repeats_mono (fun e he => ?_) hd
    obtain ⟨c, hc, rfl⟩ := derivesOnce_leaf.mp he
    exact derivesOnce_leaf.mpr ⟨c, h cls hc, rfl⟩
  | sequence parts m ih =>
    refine repeats_mono (fun e he => ?_) hd
    obtain ⟨es, hes, rfl⟩ := derivesOnce_sequence.mp he
    exact derivesOnce_sequence.mpr ⟨es, forall₂_imp_of_mem (fun t ht _ => ih t ht) hes, rfl⟩
  | choice members m ih =>
    refine repeats_mono (fun e he => ?_) hd
    obtain ⟨t, ht, he⟩ := derivesOnce_choice.mp he
    exact derivesOnce_choice.mpr ⟨t, ht, ih t ht he⟩

end Tree

end Exemplar
