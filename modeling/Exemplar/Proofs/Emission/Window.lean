import Exemplar.Proofs.Emission.Gaps
import Exemplar.Proofs.Emission.Splits

/-!
# The window of numbers of occurrences

The number of times that something occurs in a string is drawn from a window, whose ends come from
divisions. These round, and they have answers of their own where a divisor is zero or where there is
no limit. For all that the window holds just the numbers that are allowed and that make up the
length, computed exactly. So a length is never refused when it is shared out to the occurrences, nor
when the share of an occurrence is shared out to the parts.

To tell this of whole runs, emitters are watched. A watcher makes the choices of its emitter, but
where a length is not shared out it stops with an error of its own, and no choice passes over that
error. The watcher of a tree does the same as its emitter, so it never stops in this way.

## Main definitions

* `Extent.MakesUp`: the number of occurrences is allowed and makes up the length
* `Watched`: an emission that tells where a length is not shared out
* `Tree.watcher`: the emitter of a tree, watched

## Main results

* `Extent.makesUp_iff`: the window by divisions is the exact one
* `Watched.bind_eq`: what follows an emission need be the same only for values that it can have
* `Tree.watcher_eq`: in no run of the emitter of a tree is a length refused to be shared out
* `Emitter.occurrences_exact`: all of this together
-/

namespace Exemplar

/-! ## Numbers of occurrences -/

section Quotients

variable {n k b : ℕ}

/-- Rounding up: the quotient is the least number of occurrences that are long enough. -/
theorem quotientUp_le_iff (hn : n < unbounded) (hk : k < unbounded) :
    quotientUp n b ≤ k ↔ n ≤ k * b := by
  refine ⟨le_mul_of_quotientUp_le hn hk, fun h => quotientUp_le hn (fun h0 => ?_) (.inr h)⟩
  rwa [h0, Nat.zero_mul, Nat.le_zero] at h

/-- Rounding down: the quotient is the greatest number of occurrences that are short enough. -/
theorem le_quotient_iff (hn : n < unbounded) (hk : k < unbounded) :
    k ≤ quotient n b ↔ k * b ≤ n := by
  refine ⟨fun h => mul_le_of_le_quotient hn (.inr h), fun h => ?_⟩
  rcases le_quotient h with hopen | ⟨hle, -⟩
  · exact hopen ▸ hk.le
  · exact hle

theorem quotientUp_le_unbounded (hn : n < unbounded) (b : ℕ) : quotientUp n b ≤ unbounded := by
  rcases Nat.eq_zero_or_pos b with rfl | hb
  · rw [quotientUp]
    split
    · exact Nat.zero_le _
    · rw [if_pos (.inl rfl)]
  · exact (quotientUp_le hn id (.inr (Nat.le_mul_of_pos_right n hb))).trans hn.le

end Quotients

namespace Extent

/-- So many occurrences are allowed, and they make up the length `n`. All is computed exactly, and
an upper end at `unbounded` is infinite. -/
structure MakesUp (occurs once : Extent) (n k : ℕ) : Prop where
  least_le : occurs.least ≤ k
  le_limit : (k : ℕ∞) ≤ occurs.limit
  mul_least_le : k * once.least ≤ n
  le_mul : (n : ℕ∞) ≤ k * once.limit

variable {occurs once e : Extent} {n k : ℕ}

/-- Below `unbounded` it makes no difference whether an upper end there is infinite. -/
theorem le_limit_iff (hk : k < unbounded) : (k : ℕ∞) ≤ e.limit ↔ k ≤ e.most := by
  rw [limit]
  by_cases hopen : e.most = unbounded
  · rw [if_pos hopen, hopen]
    exact iff_of_true le_top hk.le
  · rw [if_neg hopen]
    exact_mod_cast Iff.rfl

/-- Nor does it make a difference for products: nothing times infinity is nothing, and anything else
is out of reach. -/
theorem le_mul_limit_iff (hn : n < unbounded) : (n : ℕ∞) ≤ k * e.limit ↔ n ≤ k * e.most := by
  by_cases hopen : e.most = unbounded
  · rw [le_mul_limit_of_open hopen, hopen]
    rcases Nat.eq_zero_or_pos k with rfl | hpos
    · simp
    · exact iff_of_true (fun h0 => absurd h0 hpos.ne') (hn.le.trans (Nat.le_mul_of_pos_left _ hpos))
  · exact le_mul_limit hopen

/-- **The window**: its ends by division enclose just the numbers of occurrences that make up the
length. -/
theorem makesUp_iff (hn : n < unbounded) (hk : k < unbounded) : occurs.MakesUp once n k ↔
    max occurs.least (quotientUp n once.most) ≤ k ∧
      k ≤ min occurs.most (quotient n once.least) := by
  rw [max_le_iff, le_min_iff, quotientUp_le_iff hn hk, le_quotient_iff hn hk, ← le_limit_iff hk,
    ← le_mul_limit_iff hn]
  constructor
  · rintro ⟨hleast, hlimit, hshort, hlong⟩
    exact ⟨⟨hleast, hlong⟩, hlimit, hshort⟩
  · rintro ⟨⟨hleast, hlong⟩, hlimit, hshort⟩
    exact ⟨hleast, hlimit, hshort, hlong⟩

/-- The sums of so many ends, kept at `unbounded` in each step, agree with the products. -/
theorem MakesUp.mem_sumAll (h : occurs.MakesUp once n k) (hn : n < unbounded) :
    n ∈ sumAll (List.replicate k once) := by
  rw [mem_sumAll_replicate hn]
  exact ⟨h.mul_least_le, (le_mul_limit_iff hn).mp h.le_mul⟩

end Extent

namespace Emitter

variable {occurs once : Extent} {n k lowest highest : ℕ}

/-- There is nothing to draw from just if no number of occurrences makes up the length. Otherwise
the lower end makes up the length itself. -/
theorem occurrences?_eq_none_iff (hn : n < unbounded) :
    occurrences? occurs once n = none ↔ ∀ k < unbounded, ¬ occurs.MakesUp once n k := by
  have hmost := occurs.most_le_unbounded
  simp only [occurrences?]
  split
  next hrefused =>
    refine iff_of_true rfl fun k hk h => ?_
    rw [Extent.makesUp_iff hn hk] at h
    omega
  next haccepted =>
    refine iff_of_false (Option.some_ne_none _) fun h => ?_
    refine h (max occurs.least (quotientUp n once.most)) (by omega) ?_
    rw [Extent.makesUp_iff hn (by omega)]
    omega

/-- Every number to draw from makes up the length. -/
theorem makesUp_of_occurrences? (hn : n < unbounded)
    (h : occurrences? occurs once n = some (lowest, highest)) (hlow : lowest ≤ k)
    (hhigh : k ≤ highest) : occurs.MakesUp once n k := by
  obtain ⟨-, hsmall, hadmits⟩ := admits_of_occurrences? hn h
  have hk := hhigh.trans_lt hsmall
  have hallowed := (hadmits k hlow hhigh).mem hk
  have hin := mem_sumAll_of_occurrences? hn h hlow hhigh
  rw [Extent.mem_sumAll_replicate hn] at hin
  exact ⟨hallowed.1, (Extent.le_limit_iff hk).mpr hallowed.2, hin.1,
    (Extent.le_mul_limit_iff hn).mpr hin.2⟩

end Emitter

/-! ## Watched emissions -/

/-- What stops a watched emission. -/
inductive Stop where
  /-- The length is not shared out to the parts. -/
  | refused (parts : List Extent) (total : ℕ)
  /-- The emission fails for another reason. -/
  | failed (reason : EmissionError)

/-- An emission that tells where a length is not shared out. -/
abbrev Watched (σ α : Type) := EStateM Stop σ α

variable {σ α β : Type}

namespace Watched

/-- An emission in which there is nothing to be watched. -/
def ofEmission (e : Emission σ α) : Watched σ α := EStateM.adaptExcept .failed e

/-- The first of the emissions that does not fail for a local reason. A length that is not shared
out is never passed over. -/
def firstOf (last : EmissionError) : List (Watched σ α) → Watched σ α
  | [] => throw (.failed last)
  | e :: es => fun s =>
    match e s with
    | .ok a s => .ok a s
    | .error (.refused parts total) s => .error (.refused parts total) s
    | .error (.failed reason) s =>
      if reason.isLocal then firstOf reason es s else .error (.failed reason) s

/-- Sharing out with every step checked. Whatever goes wrong, the length has been refused. -/
def share (source : RandomSource σ) (parts : List Extent) (total : ℕ) : Watched σ (List ℕ) :=
  fun s =>
    match shareOutChecked source parts total s with
    | .ok lengths s => .ok lengths s
    | .error _ s => .error (.refused parts total) s

/-- What follows an emission need be the same only for the values that the emission can have. -/
theorem bind_eq {e : Emission σ α} {f : α → Emission σ β} {f' : α → Watched σ β} {P : α → Prop}
    {E : EmissionError → Prop} (he : e.Ensures P E) (hf : ∀ a, P a → f' a = ofEmission (f a)) :
    ofEmission e >>= f' = ofEmission (e >>= f) := by
  funext s
  have hs := he s
  change EStateM.bind (ofEmission e) f' s = EStateM.adaptExcept _ (EStateM.bind e f) s
  simp only [ofEmission, EStateM.bind, EStateM.adaptExcept]
  cases h : e s with
  | ok a s' =>
    rw [h] at hs
    exact congrFun (hf a hs) s'
  | error x s' => rfl

theorem bind_congr {e : Emission σ α} {f : α → Emission σ β} {f' : α → Watched σ β}
    (hf : ∀ a, f' a = ofEmission (f a)) : ofEmission e >>= f' = ofEmission (e >>= f) :=
  bind_eq (Emission.ensures_of_forall (P := fun _ => True) fun _ => trivial) fun a _ => hf a

theorem mapM_eq {f : α → Emission σ β} {f' : α → Watched σ β} {l : List α}
    (h : ∀ a ∈ l, f' a = ofEmission (f a)) : l.mapM f' = ofEmission (l.mapM f) := by
  induction l with
  | nil => rfl
  | cons a l ih =>
    rw [List.forall_mem_cons] at h
    rw [List.mapM_cons, List.mapM_cons, h.1, ih h.2]
    exact bind_congr fun b => bind_congr fun bs => rfl

/-- Strings one after the other. -/
theorem texts_eq {f : α → Emission σ (List Char)} {f' : α → Watched σ (List Char)} {l : List α}
    (h : ∀ a ∈ l, f' a = ofEmission (f a)) :
    (l.mapM f' >>= fun texts => pure texts.flatten) =
      ofEmission (l.mapM f >>= fun texts => pure texts.flatten) := by
  rw [mapM_eq h]
  exact bind_congr fun texts => rfl

/-- Watching the first of some emissions is watching each of them. -/
theorem firstOf_map (last : EmissionError) (es : List (Emission σ α)) :
    firstOf last (es.map ofEmission) = ofEmission (Exemplar.firstOf last es) := by
  induction es generalizing last with
  | nil => rfl
  | cons e es ih =>
    funext s
    simp only [List.map_cons, firstOf, Exemplar.firstOf, ofEmission, EStateM.adaptExcept]
    cases h : e s with
    | ok a s' => rfl
    | error x s' =>
      dsimp only
      split
      · exact congrFun (ih x) s'
      · rfl

/-- Where the length lies in the range of the parts, there is nothing to be watched. -/
theorem share_eq (source : RandomSource σ) {parts : List Extent} {total : ℕ}
    (htotal : total < unbounded) (hin : total ∈ Extent.sumAll parts) :
    share source parts total = ofEmission (shareOut source parts total) := by
  funext s
  obtain ⟨lengths, s', hok, -⟩ := exists_shareOut source htotal hin s
  rw [share, shareOutChecked_eq source htotal]
  simp only [Checked.ofEmission, ofEmission, EStateM.adaptExcept, hok]

end Watched

/-! ## Watchers -/

/-- An emitter that is watched. -/
structure Watcher (σ : Type) where
  /-- The lengths of the strings, from the shortest to the longest. -/
  length : Extent
  /-- A random string of just this length. -/
  emit : ℕ → Watched σ (List Char)

namespace Watcher

/-- An emitter in which there is nothing to be watched. -/
def ofEmitter (e : Emitter σ) : Watcher σ := ⟨e.length, fun total => .ofEmission (e.emit total)⟩

/-- One string after the other. -/
def sequence (source : RandomSource σ) (parts : List (Watcher σ)) : Watcher σ where
  length := .sumAll (parts.map (·.length))
  emit total := do
    let lengths ← Watched.share source (parts.map (·.length)) total
    let texts ← (parts.zip lengths).mapM fun (part, length) => part.emit length
    return texts.flatten

/-- A string of one of the members. -/
def choice (source : RandomSource σ) (members : List (Watcher σ)) : Watcher σ where
  length := .hullAll (members.map (·.length))
  emit total := do
    let candidates ← Watched.ofEmission (shuffled source (members.filter (total ∈ ·.length)))
    Watched.firstOf (.infeasible total) (candidates.map (·.emit total))

/-- A string that occurs a number of times, different each time. -/
def repeated (source : RandomSource σ) (occurs : Extent) (once : Watcher σ) : Watcher σ where
  length := occurs.mul once.length
  emit total := do
    if total ∉ occurs.mul once.length then throw (.failed (.infeasible total))
    if total = 0 ∧ occurs.least = 0 then return []
    match Emitter.occurrences? occurs once.length total with
    | none => throw (.failed (.infeasible total))
    | some (lowest, highest) =>
      let count ← Watched.ofEmission (draw source lowest (justAbove highest))
      let lengths ← Watched.share source (List.replicate count once.length) total
      let texts ← lengths.mapM once.emit
      return texts.flatten

variable {source : RandomSource σ} {n : ℕ}

theorem map_length_ofEmitter (es : List (Emitter σ)) :
    (es.map ofEmitter).map (·.length) = es.map (·.length) := by
  rw [List.map_map]
  rfl

/-- A length of a sequence is shared out to its parts. -/
theorem sequence_emit (es : List (Emitter σ)) (hn : n < unbounded)
    (hin : n ∈ (Emitter.sequence source es).length) :
    (sequence source (es.map ofEmitter)).emit n =
      .ofEmission ((Emitter.sequence source es).emit n) := by
  simp only [sequence, Emitter.sequence, map_length_ofEmitter]
  rw [Watched.share_eq source hn hin]
  refine Watched.bind_congr fun lengths => ?_
  rw [List.zip_map_left, List.mapM_map]
  exact Watched.texts_eq fun _ _ => rfl

/-- The order of the members does not depend on what they are. -/
theorem shuffled_map_bind {γ : Type} (f : α → β) (l : List α) (g : List β → Watched σ γ) :
    Watched.ofEmission (shuffled source (l.map f)) >>= g =
      Watched.ofEmission (shuffled source l) >>= fun l => g (l.map f) := by
  funext s
  have hget : ∀ i, (l.map f)[i]? = (l[i]?).map f := fun i => List.getElem?_map
  have hshuffle : source.shuffle (l.map f) s =
      ((source.shuffle l s).1.map f, (source.shuffle l s).2) := by
    simp only [RandomSource.shuffle, List.length_map, hget, List.map_filterMap]
  change g (source.shuffle (l.map f) s).1 (source.shuffle (l.map f) s).2 = _
  rw [hshuffle]
  rfl

/-- A watched choice is the choice, watched. -/
theorem choice_ofEmitter (es : List (Emitter σ)) :
    choice source (es.map ofEmitter) = ofEmitter (Emitter.choice source es) := by
  simp only [choice, Emitter.choice, ofEmitter, Watcher.mk.injEq]
  refine ⟨congrArg Extent.hullAll (map_length_ofEmitter es), funext fun total => ?_⟩
  have hfilter : (es.map ofEmitter).filter (total ∈ ·.length) =
      (es.filter (total ∈ ·.length)).map ofEmitter := List.filter_map
  rw [hfilter, shuffled_map_bind]
  refine Watched.bind_congr fun candidates => ?_
  rw [← Watched.firstOf_map, List.map_map, List.map_map]
  rfl

/-- A number that is drawn makes up the length, and the shares lie in the range of one occurrence.
So sharing is not refused, and nothing shows the two apart. -/
theorem repeated_ofEmitter {occurs : Extent} {once : Watcher σ} {e : Emitter σ}
    (hlength : once.length = e.length)
    (h : ∀ n < unbounded, n ∈ e.length → once.emit n = .ofEmission (e.emit n)) :
    repeated source occurs once = ofEmitter (Emitter.repeated source occurs e) := by
  simp only [repeated, Emitter.repeated, ofEmitter, hlength, Watcher.mk.injEq, true_and]
  funext n
  split
  next => rfl
  next hin =>
  split
  · rfl
  cases hsome : Emitter.occurrences? occurs e.length n with
  | none => rfl
  | some window =>
    obtain ⟨lowest, highest⟩ := window
    have hn := Emitter.lt_unbounded_of_occurrences? (not_not.mp hin) hsome
    have hdraw : (draw source lowest (justAbove highest)).Ensures _ fun _ => False :=
      Emitter.ensures_draw_of_occurrences? hn hsome
    refine Watched.bind_eq hdraw fun count hcount => ?_
    have hin := Emitter.mem_sumAll_of_occurrences? hn hsome hcount.1 hcount.2
    rw [Watched.share_eq source hn hin]
    have hshare : (shareOut source (List.replicate count e.length) n).Ensures _ fun _ => True :=
      shareOut_ensures source hn fun _ => trivial
    refine Watched.bind_eq hshare fun lengths hlengths => Watched.texts_eq fun k hk => ?_
    obtain ⟨hranges, hsum⟩ := hlengths
    obtain ⟨range, hrange, hmem⟩ := exists_left_of_mem hranges hk
    rw [List.eq_of_mem_replicate hrange] at hmem
    exact h k (lt_of_mem_of_sum_lt hk (hsum ▸ hn)) hmem

end Watcher

/-! ## Trees -/

namespace Tree

mutual

/-- The emitter of the strings that the tree describes, watched. -/
def watcher (source : RandomSource σ) (alphabet : Alphabet) : Tree → Watcher σ
  | leaf cls m => .ofEmitter (.ofLeaf source alphabet cls m)
  | sequence parts m =>
    .repeated source m.occurs (.sequence source (watchers source alphabet parts))
  | choice members m =>
    .repeated source m.occurs (.choice source (watchers source alphabet members))

/-- The emitter of each tree, watched. -/
def watchers (source : RandomSource σ) (alphabet : Alphabet) : List Tree → List (Watcher σ)
  | [] => []
  | t :: ts => t.watcher source alphabet :: watchers source alphabet ts

end

theorem watchers_eq_map (source : RandomSource σ) (alphabet : Alphabet) (ts : List Tree) :
    watchers source alphabet ts = ts.map (watcher source alphabet) := by
  induction ts with
  | nil => rfl
  | cons t ts ih => rw [watchers, ih, List.map_cons]

theorem watchers_eq {source : RandomSource σ} {alphabet : Alphabet} {ts : List Tree}
    (h : ∀ t ∈ ts, t.watcher source alphabet = .ofEmitter (t.emitter source alphabet)) :
    watchers source alphabet ts = (emitters source alphabet ts).map Watcher.ofEmitter := by
  rw [watchers_eq_map, emitters_eq_map, List.map_map]
  exact List.map_congr_left h

/-- **No refusal**: in no run of the emitter of a tree is a length refused to be shared out. -/
theorem watcher_eq (source : RandomSource σ) (alphabet : Alphabet) (t : Tree) :
    t.watcher source alphabet = .ofEmitter (t.emitter source alphabet) := by
  induction t with
  | leaf cls m => rfl
  | sequence parts m ih =>
    rw [watcher, emitter, watchers_eq ih]
    exact Watcher.repeated_ofEmitter (congrArg Extent.sumAll (Watcher.map_length_ofEmitter _))
      fun n hn hin => Watcher.sequence_emit _ hn hin
  | choice members m ih =>
    rw [watcher, emitter, watchers_eq ih, Watcher.choice_ofEmitter]
    exact Watcher.repeated_ofEmitter rfl fun n _ _ => rfl

end Tree

/-! ## The window -/

namespace Emitter

/-- The window by divisions holds just the numbers of occurrences that make up the length, and where
its upper end is lowered, it keeps numbers to draw from. There is nothing to draw from just if no
number makes up the length. Whatever number is drawn makes it up, and the length is shared out to so
many occurrences. Every length in the range of some parts is shared out to them, and in no run of
the emitter of a tree is a length refused to be shared out. -/
theorem occurrences_exact (occurs once : Extent) {total : ℕ} (htotal : total < unbounded) :
    let lowest := max occurs.least (quotientUp total once.most)
    let highest := min occurs.most (quotient total once.least)
    (∀ k < unbounded, lowest ≤ k ∧ k ≤ highest ↔ occurs.MakesUp once total k) ∧
    (highest = unbounded → lowest ≤ max lowest total ∧ max lowest total ≤ highest ∧
      (lowest < unbounded → max lowest total < unbounded)) ∧
    (occurrences? occurs once total = none ↔ ∀ k < unbounded, ¬ occurs.MakesUp once total k) ∧
    ∀ {σ : Type} (source : RandomSource σ),
      (∀ least most, occurrences? occurs once total = some (least, most) →
        ∀ s, occurs.MakesUp once total (source.range least (justAbove most) s).1) ∧
      (∀ k, occurs.MakesUp once total k → ∀ s, ∃ lengths s',
        shareOut source (List.replicate k once) total s = .ok lengths s') ∧
      (∀ parts : List Extent, ∀ length ∈ Extent.sumAll parts, ∀ s, ∃ lengths s',
        shareOut source parts length s = .ok lengths s') ∧
      ∀ (alphabet : Alphabet) (t : Tree),
        t.watcher source alphabet = .ofEmitter (t.emitter source alphabet) := by
  intro lowest highest
  refine ⟨fun k hk => (Extent.makesUp_iff htotal hk).symm, fun hopen => ?_,
    occurrences?_eq_none_iff htotal, fun source => ⟨?_, ?_, ?_, ?_⟩⟩
  · have hup : lowest ≤ unbounded :=
      max_le (occurs.least_le_most.trans occurs.most_le_unbounded) (quotientUp_le_unbounded htotal _)
    omega
  · intro least most hsome s
    have hdraw : (draw source least (justAbove most)).Ensures _ fun _ => False :=
      ensures_draw_of_occurrences? htotal hsome
    obtain ⟨hlow, hhigh⟩ := hdraw s
    exact makesUp_of_occurrences? htotal hsome hlow hhigh
  · exact fun k hk => exists_shareOut_of_mem source (hk.mem_sumAll htotal)
  · exact fun parts length => exists_shareOut_of_mem source
  · exact Tree.watcher_eq source

/-- Three is the only number of occurrences of two or three characters, if there are two to five of
them, that makes up seven characters; without limits, one to four are drawn for four characters. -/
theorem occurrences_exact_seven : 7 < unbounded ∧
    (∀ k < unbounded, (⟨2, 5, by decide, by decide⟩ : Extent).MakesUp
      ⟨2, 3, by decide, by decide⟩ 7 k ↔ k = 3) ∧
    (∃ lengths s', shareOut Script.source (List.replicate 3 ⟨2, 3, by decide, by decide⟩) 7
      ⟨#[1, 0], 0⟩ = .ok lengths s') ∧
    occurrences? .any .any 4 = some (1, 4) ∧ ∀ s,
      Extent.any.MakesUp .any 4 (Script.source.range 1 (justAbove 4) s).1 := by
  obtain ⟨hwindow, -, -, hruns⟩ := occurrences_exact ⟨2, 5, by decide, by decide⟩
    ⟨2, 3, by decide, by decide⟩ (show 7 < unbounded by decide)
  obtain ⟨-, -, -, hopen⟩ := occurrences_exact .any .any (show 4 < unbounded by decide)
  have hthree : ∀ k < unbounded, (⟨2, 5, by decide, by decide⟩ : Extent).MakesUp
      ⟨2, 3, by decide, by decide⟩ 7 k ↔ k = 3 := by
    intro k hk
    have hends : max 2 (quotientUp 7 3) = 3 ∧ min 5 (quotient 7 2) = 3 := by decide
    rw [← hwindow k hk]
    dsimp only
    omega
  refine ⟨by decide, hthree, ?_, by decide, fun s => ?_⟩
  · exact (hruns Script.source).2.1 3 ((hthree 3 (by decide)).mpr rfl) _
  · exact (hopen Script.source).1 1 4 (by decide) s

end Emitter

end Exemplar
