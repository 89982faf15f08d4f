import Exemplar.Proofs.Emission.Gaps
import Exemplar.Random.Script

/-!
# Lengths that are refused

When a search gives up, it says that there is no string of some length. But it has only tried some
of the ways to share the length out, and another one may have done: of `^(?:a|bcd)(?:a|bcd)$` there
are strings with four characters, but none with two characters for each part. What it says is true
where the shares do not matter, that is, where there are strings of all the shares if there is one
of the whole length, however this is shared out. For then a refusal goes down to a part that has no
string of its share, and there is none of the whole length.

## Main definitions

* `HasLength l n`: some string of the language has the length
* `Tree.SharesAlike`: the shares do not matter at this node

## Main results

* `Tree.not_hasLength_of_canFail`: what the emitter of a tree cannot yield is not there
* `Tree.exists_canFail_of_not_partsShareAlike`: where the shares of the parts matter, a string may be
  missed
* `Tree.every_sharesAlike_of_gaplessOnce`: the shares do not matter for parts without gaps
* `Generator.length_ne_of_generate_infeasible`: there is no string of a length that is refused
* `Generator.exists_generate_infeasible`: a length that is refused although there is a string
-/

namespace Exemplar

/-- Some string of the language has the length. -/
def HasLength (l : Language Char) (n : Nat) : Prop := ∃ w ∈ l, w.length = n

/-- If there is a string of the whole length, there are strings of all shares of the occurrences,
however the length is shared out. -/
def Extent.SharesAlike (occurs once : Extent) (l : Language Char) : Prop :=
  ∀ shares : List Nat, occurs.Admits shares.length → (∀ n ∈ shares, n ∈ once) →
    shares.sum < unbounded → HasLength (occurs.repeated l) shares.sum → ∀ n ∈ shares, HasLength l n

/-- The shares do not matter where there are strings of all lengths. -/
theorem Extent.sharesAlike_of_forall {occurs once : Extent} {l : Language Char}
    (h : ∀ n ∈ once, n < unbounded → HasLength l n) : occurs.SharesAlike once l := by
  intro shares _ honce hsum _ n hn
  exact h n (honce n hn) (lt_of_mem_of_sum_lt hn hsum)

namespace Tree

/-- If there is a string of the whole length, there are strings of all shares of the parts, however
the length is shared out. -/
def PartsShareAlike (M : Meaning) (parts : List Tree) : Prop :=
  ∀ shares : List Nat, List.Forall₂ (fun (t : Tree) n => n ∈ t.length) parts shares →
    shares.sum < unbounded → HasLength (languageOfParts M parts) shares.sum →
      List.Forall₂ (fun (t : Tree) n => HasLength (t.language M) n) parts shares

/-- It makes no difference how a length is shared out to the occurrences of the node, and to its
parts. -/
def SharesAlike (M : Meaning) : Tree → Prop
  | leaf _ _ => True
  | sequence parts m =>
    m.occurs.SharesAlike (.sumAll (lengths parts)) (languageOfParts M parts) ∧
      PartsShareAlike M parts
  | choice members m =>
    m.occurs.SharesAlike (.hullAll (lengths members)) (languageOfMembers M members)

end Tree

/-! ## Refusals -/

section Refusal

variable {σ : Type} {source : RandomSource σ} {x : EmissionError} {n : Nat}

/-- The length of a string that is put together can be shared out to some number of occurrences. -/
theorem HasLength.occurrences?_ne_none {l : Language Char} {occurs once : Extent}
    (h : HasLength (occurs.repeated l) n) (hleast : occurs.least < unbounded) (hn : n < unbounded)
    (hlength : ∀ w ∈ l, once.Admits w.length) :
    n ∈ occurs.mul once ∧ Emitter.occurrences? occurs once n ≠ none := by
  obtain ⟨w, hw, rfl⟩ := h
  refine ⟨(Tree.length_admits_repeated hlength hw).mem hn, ?_⟩
  obtain ⟨ws, hadmits, hws, rfl⟩ := Extent.mem_repeated.mp hw
  obtain ⟨lowest, highest, hsome, -⟩ := Emitter.exists_pieces hleast hn hadmits hws hlength
  rw [hsome]
  exact nofun

/-- Where something that occurs a number of times fails though there is a string, an occurrence
fails though there is a string of its share. -/
theorem Emitter.exists_share_of_canFail {occurs : Extent} {once : Emitter σ} {l : Language Char}
    (h : ((repeated source occurs once).emit n).CanFail x) (hn : n < unbounded)
    (hleast : occurs.least < unbounded) (hlength : ∀ w ∈ l, once.length.Admits w.length)
    (halike : occurs.SharesAlike once.length l) (hl : HasLength (occurs.repeated l) n) :
    ∃ k < unbounded, HasLength l k ∧ (once.emit k).CanFail x := by
  obtain ⟨hin, hsome⟩ := hl.occurrences?_ne_none hleast hn hlength
  rcases canFail_repeated h with ⟨-, hcase⟩ | ⟨-, ks, hadmits, hks, rfl, k, hk, hfail⟩
  · exact absurd hcase (not_or.mpr ⟨not_not.mpr hin, hsome⟩)
  · have hkn := lt_of_mem_of_sum_lt hk hn
    exact ⟨k, hkn, halike ks hadmits hks hn hl k hk, hfail⟩

namespace Tree

variable {alphabet : Alphabet} {t : Tree}

/-- Where the shares do not matter, the emitter of a tree fails with a length only if there is no
string of it, whatever the source answers. A string of the whole length makes for strings of the
shares, down to the leaf that fails, and a choice has tried all members that have the length among
their lengths. -/
theorem not_hasLength_of_canFail (halike : t.Every (SharesAlike (.drawn alphabet)))
    (ha : t.Every IsAttainable) (hn : n < unbounded)
    (h : ((t.emitter source alphabet).emit n).CanFail x) :
    ¬ HasLength (t.language (.drawn alphabet)) n := by
  intro hl
  induction t generalizing n x with
  | leaf cls m =>
    obtain ⟨w, hw, rfl⟩ := hl
    obtain ⟨hadmits, hmem⟩ := mem_language_leaf.mp hw
    rcases Emitter.canFail_ofLeaf h with ⟨hout, -⟩ | ⟨hpos, hempty, -⟩
    · exact hout (hadmits.mem hn)
    · obtain ⟨c, hc⟩ := List.exists_mem_of_length_pos (Nat.pos_of_ne_zero hpos)
      have hcls := hmem c hc
      rw [Meaning.mem_drawn, CharSet.isEmpty_iff.mp hempty] at hcls
      exact CharSet.not_mem_empty hcls
  | sequence parts m ih =>
    obtain ⟨⟨hoccurs, hshare⟩, hparts⟩ := every_iff.mp halike
    obtain ⟨hleast, hattainable⟩ := every_iff.mp ha
    have hlength : ∀ w ∈ languageOfParts (.drawn alphabet) parts,
        (Extent.sumAll (lengths parts)).Admits w.length := fun _ =>
      length_admits_parts fun t _ _ => length_admits t
    rw [emitter, emitters_eq_map] at h
    obtain ⟨k, hk, hlk, hfail⟩ := Emitter.exists_share_of_canFail h hn hleast
      (length_sequence_emitters source alphabet parts ▸ hlength)
      (length_sequence_emitters source alphabet parts ▸ hoccurs) hl
    rcases canFail_parts hk hfail with ⟨hout, -⟩ | ⟨ls, hls, rfl, t, l, hmem, hfail⟩
    · obtain ⟨w, hw, rfl⟩ := hlk
      exact hout ((hlength w hw).mem hk)
    · obtain ⟨ht, hl⟩ := List.of_mem_zip hmem
      have hln := lt_of_mem_of_sum_lt hl hk
      exact ih t ht (hparts t ht) (hattainable t ht) hln hfail
        (List.forall₂_iff_zip.mp (hshare ls hls hk hlk) |>.2 hmem)
  | choice members m ih =>
    obtain ⟨hoccurs, hmembers⟩ := every_iff.mp halike
    obtain ⟨hleast, hattainable⟩ := every_iff.mp ha
    have hlength : ∀ w ∈ languageOfMembers (.drawn alphabet) members,
        (Extent.hullAll (lengths members)).Admits w.length := fun _ =>
      length_admits_members fun t _ _ => length_admits t
    have hlocal := (blames_of_canFail h).isLocal
    rw [emitter, emitters_eq_map] at h
    obtain ⟨k, hk, ⟨w, hw, rfl⟩, hfail⟩ := Emitter.exists_share_of_canFail h hn hleast
      (length_choice_emitters source alphabet members ▸ hlength)
      (length_choice_emitters source alphabet members ▸ hoccurs) hl
    obtain ⟨t, ht, hwt⟩ := mem_languageOfMembers.mp hw
    obtain ⟨y, hy⟩ := Emitter.canFail_of_canFail_choice hfail hlocal _ (List.mem_map_of_mem ht)
      (by rw [length_emitter]; exact (length_admits t hwt).mem hk)
    exact ih t ht (hmembers t ht) (hattainable t ht) hk hy ⟨w, hwt, rfl⟩

/-- Parts cannot do without this. Where the shares matter, there is a string of some length, and the
source can still share the length out so that the parts fail. Once the shares have been given out,
no answers make up for a string that is missing. -/
theorem exists_canFail_of_not_partsShareAlike {parts : List Tree}
    (h : ¬ PartsShareAlike (.drawn alphabet) parts) :
    ∃ n < unbounded, HasLength (languageOfParts (.drawn alphabet) parts) n ∧ ∃ x,
      ((Emitter.sequence .prescribed (parts.map (emitter .prescribed alphabet))).emit n).CanFail
        x := by
  simp only [PartsShareAlike, not_forall] at h
  obtain ⟨shares, hshares, hsum, hwhole, hnone⟩ := h
  refine ⟨shares.sum, hsum, hwhole, ?_⟩
  have hsound : List.Forall₂ (fun e t => e.Sound (t.language (.drawn alphabet)))
      (parts.map (emitter .prescribed alphabet)) parts := by
    rw [List.forall₂_map_left_iff, List.forall₂_same]
    exact fun t _ => sound_emitter .prescribed alphabet t
  have hin : List.Forall₂ (fun e n => n ∈ e)
      ((parts.map (emitter .prescribed alphabet)).map (·.length)) shares := by
    rw [List.map_map, List.forall₂_map_left_iff]
    exact hshares.imp fun t n hn => by rwa [Function.comp_apply, length_emitter]
  have hcount : shares.length = (parts.map (emitter .prescribed alphabet)).length := by
    rw [List.length_map, hshares.length_eq]
  have htexts := Emitter.ensures_mapM_zip hsound hcount fun n hn => lt_of_mem_of_sum_lt hn hsum
  obtain ⟨x, hx⟩ := htexts.exists_canFail fun ws hws => hnone <| by
    rw [← hws.2, List.forall₂_map_right_iff]
    exact hws.1.imp fun t w hw => ⟨w, hw, rfl⟩
  exact ⟨x, (canYield_shareOut hsum hin rfl).bind_canFail hx.bind⟩

end Tree

end Refusal

/-! ## Parts without gaps -/

namespace Tree

variable {alphabet : Alphabet} {t : Tree} {n : Nat}

/-- A tree without gaps has strings of all its lengths. Some source is asked for a string, and does
not fail. -/
theorem hasLength_of_gapless (h : t.Every (IsGapless (.drawn alphabet)))
    (ha : t.Every IsAttainable) (hn : n < unbounded) (hin : n ∈ t.length) :
    HasLength (t.language (.drawn alphabet)) n := by
  cases he : (t.emitter .prescribed alphabet).emit n [] with
  | ok w s =>
    obtain ⟨hw, hlen, -⟩ := emitter_sound he
    exact ⟨w, hw, hlen⟩
  | error x s => exact absurd ⟨[], s, he⟩ (not_canFail_of_gapless h ha hn hin)

variable {M : Meaning}

/-- Every length can be shared out to the parts. The first part takes as much as the others
leave. -/
theorem hasLength_parts {parts : List Tree} (hn : n < unbounded)
    (h : ∀ t ∈ parts, ∀ k ∈ t.length, k < unbounded → HasLength (t.language M) k)
    (hin : n ∈ Extent.sumAll (lengths parts)) : HasLength (languageOfParts M parts) n := by
  induction parts generalizing n with
  | nil => exact ⟨[], Language.nil_mem_one, (Nat.le_zero.mp hin.2).symm⟩
  | cons t ts ih =>
    rw [List.forall_mem_cons] at h
    have hsum : n ∈ t.length.add (Extent.sumAll (lengths ts)) := hin
    simp only [Extent.mem_iff, Extent.add, cappedAdd] at hsum
    have hends := t.length.least_le_most
    obtain ⟨w, hw, hlen⟩ := h.1 (min t.length.most (n - (Extent.sumAll (lengths ts)).least))
      (by rw [Extent.mem_iff]; omega) (by omega)
    have hrest := (Extent.sumAll (lengths ts)).least_le_most
    obtain ⟨v, hv, hlens⟩ := ih (n := n - w.length) (by omega) h.2 (by rw [Extent.mem_iff]; omega)
    exact ⟨w ++ v, Language.append_mem_mul hw hv, by rw [List.length_append]; omega⟩

/-- Where the members have strings of all their lengths, and leave none out in between, so does the
choice. -/
theorem hasLength_members {members : List Tree} (hn : n < unbounded)
    (h : ∀ t ∈ members, ∀ k ∈ t.length, k < unbounded → HasLength (t.language M) k)
    (hcovered : Extent.Covered (lengths members)) (hin : n ∈ Extent.hullAll (lengths members)) :
    HasLength (languageOfMembers M members) n := by
  obtain ⟨e, he, hne⟩ := hcovered n hin hn
  rw [lengths_eq_map] at he
  obtain ⟨t, ht, rfl⟩ := List.mem_map.mp he
  obtain ⟨w, hw, hlen⟩ := h t ht n hne hn
  exact ⟨w, mem_languageOfMembers.mpr ⟨t, ht, hw⟩, hlen⟩

/-- One occurrence of the node has no gaps. -/
def IsGaplessOnce (M : Meaning) : Tree → Prop
  | leaf _ _ => True
  | sequence parts _ => ∀ t ∈ parts, t.Every (IsGapless M)
  | choice members _ => (∀ t ∈ members, t.Every (IsGapless M)) ∧ Extent.Covered (lengths members)

instance (alphabet : Alphabet) : DecidablePred (IsGaplessOnce (.drawn alphabet)) := fun
  | leaf _ _ => .isTrue trivial
  | sequence parts _ => inferInstanceAs (Decidable (∀ t ∈ parts, t.Every (IsGapless _)))
  | choice members _ =>
    inferInstanceAs (Decidable ((∀ t ∈ members, t.Every (IsGapless _)) ∧ Extent.Covered _))

theorem isGaplessOnce_of_gapless (h : t.Every (IsGapless M)) : t.IsGaplessOnce M := by
  obtain ⟨hnode, hchildren⟩ := every_iff.mp h
  cases t with
  | leaf => trivial
  | sequence parts m => exact hchildren
  | choice members m => exact ⟨hchildren, hnode.2⟩

/-- Where a single occurrence has no gaps, it does not matter how its length is shared out. -/
theorem sharesAlike_of_gaplessOnce (h : t.IsGaplessOnce (.drawn alphabet))
    (ha : t.Every IsAttainable) : t.SharesAlike (.drawn alphabet) := by
  have hchildren := (every_iff.mp ha).2
  cases t with
  | leaf => trivial
  | sequence parts m =>
    have hparts : ∀ t ∈ parts, ∀ k ∈ t.length, k < unbounded → HasLength (t.language _) k :=
      fun t ht k hin hk => hasLength_of_gapless (h t ht) (hchildren t ht) hk hin
    refine ⟨Extent.sharesAlike_of_forall fun n hin hn => hasLength_parts hn hparts hin, ?_⟩
    intro shares hshares hsum _
    rw [List.forall₂_iff_zip] at hshares ⊢
    refine ⟨hshares.1, fun hmem => ?_⟩
    obtain ⟨ht, hk⟩ := List.of_mem_zip hmem
    exact hparts _ ht _ (hshares.2 hmem) (lt_of_mem_of_sum_lt hk hsum)
  | choice members m =>
    exact Extent.sharesAlike_of_forall fun n hin hn => hasLength_members hn
      (fun t ht k hin hk => hasLength_of_gapless (h.1 t ht) (hchildren t ht) hk hin) h.2 hin

theorem every_sharesAlike_of_gapless (h : t.Every (IsGapless (.drawn alphabet)))
    (ha : t.Every IsAttainable) : t.Every (SharesAlike (.drawn alphabet)) := by
  induction t using inductChildren with
  | node t ih =>
    refine .node t (sharesAlike_of_gaplessOnce (isGaplessOnce_of_gapless h) ha) fun u hu => ?_
    exact ih u hu ((every_iff.mp h).2 u hu) ((every_iff.mp ha).2 u hu)

/-- The shares do not matter if only the number of occurrences of the topmost node leaves gaps. -/
theorem every_sharesAlike_of_gaplessOnce (h : t.IsGaplessOnce (.drawn alphabet))
    (ha : t.Every IsAttainable) : t.Every (SharesAlike (.drawn alphabet)) := by
  refine .node t (sharesAlike_of_gaplessOnce h ha) fun u hu => ?_
  have hu' : u.Every (IsGapless (.drawn alphabet)) := by
    cases t with
    | leaf => cases hu
    | sequence => exact h u hu
    | choice => exact h.1 u hu
  exact every_sharesAlike_of_gapless hu' ((every_iff.mp ha).2 u hu)

end Tree

/-! ## Generators -/

namespace Generator

variable {σ : Type} {source : RandomSource σ} {g : Generator} {target : Extent} {s s' : σ} {n : Nat}

/-- A length is refused after it has been drawn in vain. -/
theorem canFail_of_generate_infeasible
    (h : g.generate source target s = .error (.infeasible n) s') :
    ∃ x, ((g.root.emitter source g.options.alphabet).emit n).CanFail x := by
  rcases Emitter.search_error (generate_eq_error.mp ⟨s', h⟩) with
    ⟨reason, hclip, hx⟩ | ⟨lengths, -, ⟨m, ⟨-, y, hy, -⟩, hm⟩ | ⟨m, -, -, hother⟩⟩
  · obtain rfl := EmissionError.length.inj hx
    rw [Extent.clip_eq_error] at hclip
    rcases hclip with ⟨-, hreason⟩ | ⟨-, hreason⟩ <;> cases hreason
  · obtain rfl := LengthError.infeasible.inj (EmissionError.length.inj hm)
    exact ⟨y, hy⟩
  · cases hother

/-- Where the shares do not matter, there is no string of a length that is refused, whatever the
source answers. -/
theorem length_ne_of_generate_infeasible (hg : g.Arises)
    (halike : g.root.Every (Tree.SharesAlike (.drawn g.options.alphabet))) (hn : n < unbounded)
    (h : g.generate source target s = .error (.infeasible n) s') :
    ∀ w ∈ g.root.language (.drawn g.options.alphabet), w.length ≠ n := by
  intro w hw hlen
  obtain ⟨x, hx⟩ := canFail_of_generate_infeasible h
  exact Tree.not_hasLength_of_canFail halike hg.attainable hn hx ⟨w, hw, hlen⟩

/-- Strings of `^(ab)*$` are refused with three characters, and there are none. -/
theorem length_ne_of_generate_infeasible_pairs : ∃ c s', compile {} "^(ab)*$" = .ok c ∧
    c.generator.root.Every (Tree.SharesAlike (.drawn c.generator.options.alphabet)) ∧
      3 < unbounded ∧
        c.generator.generate Script.source (.exactly 3) ⟨#[], 0⟩ = .error (.infeasible 3) s' ∧
          ∀ w ∈ c.generator.root.language (.drawn c.generator.options.alphabet), w.length ≠ 3 := by
  obtain ⟨c, hc, htest⟩ := exists_of_compile
    (show ((compile {} "^(ab)*$").toOption.any fun c =>
      decide (c.generator.root.IsGaplessOnce (.drawn c.generator.options.alphabet) ∧
        (c.generator.search Script.source (.exactly 3) ⟨#[], 0⟩).1.result =
          .error (.infeasible 3))) = true by decide +kernel)
  obtain ⟨hgapless, hsearch⟩ := of_decide_eq_true htest
  obtain ⟨s', h⟩ := generate_eq_error.mpr hsearch
  have hg : c.generator.Arises := .compiled hc
  have halike := Tree.every_sharesAlike_of_gaplessOnce hgapless hg.attainable
  exact ⟨c, s', hc, halike, by decide, h,
    length_ne_of_generate_infeasible hg halike (by decide) h⟩

/-- Strings of `^(?:a|bcd)(?:a|bcd)$` may be refused with four characters, as two characters for
each part. But there are such strings, and another run finds one. -/
theorem exists_generate_infeasible : ∃ c s' s'', compile {} "^(?:a|bcd)(?:a|bcd)$" = .ok c ∧
    c.generator.generate Script.source (.exactly 4) ⟨#[0, 0, 0, 1], 0⟩ =
      .error (.infeasible 4) s' ∧
    c.generator.generate Script.source (.exactly 4) ⟨#[0, 1, 1], 0⟩ = .ok "abcd" s'' ∧
      "abcd".toList ∈ c.generator.root.language (.drawn c.generator.options.alphabet) := by
  obtain ⟨c, hc, htest⟩ := exists_of_compile
    (show ((compile {} "^(?:a|bcd)(?:a|bcd)$").toOption.any fun c =>
      decide ((c.generator.search Script.source (.exactly 4) ⟨#[0, 0, 0, 1], 0⟩).1.result =
          .error (.infeasible 4) ∧
        (c.generator.search Script.source (.exactly 4) ⟨#[0, 1, 1], 0⟩).1.result =
          .ok "abcd".toList)) = true by decide +kernel)
  obtain ⟨hrefused, hfound⟩ := of_decide_eq_true htest
  obtain ⟨s', h⟩ := generate_eq_error.mpr hrefused
  obtain ⟨s'', h'⟩ := generate_eq_ok.mpr hfound
  exact ⟨c, s', s'', hc, h, h', mem_language_of_generate h'⟩

end Generator

end Exemplar
