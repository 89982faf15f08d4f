import Exemplar.Proofs.Pattern.Order

/-!
# Where tokens are refused

What is wrong with a token, in itself or where it stands, is met at a position that the reader
holds, or at one that the token tells of. So it is met inside the text or at its end.

## Main results

* `Reader.InOrder.position_le_of_step`: a token is refused inside the text
* `Reader.InOrder.position_le_of_finish`: so is the end of the text
-/

namespace Exemplar.Pattern

variable {pattern : List Char} {position stop n : Nat} {e : Error}

/-! ## A token that is refused -/

/-- A part that may not stand where it does is refused at its beginning. -/
theorem position_of_checkPlacement {first : Bool} {parts : List (Nat × Tree)}
    (h : checkPlacement first parts = .error e) : ∃ part ∈ parts, e.position = part.1 := by
  induction parts generalizing first with
  | nil => cases h
  | cons part rest ih =>
    have hhere : ∀ {reason : Reason}, (Except.error ⟨reason, part.1⟩ : Except Error Unit) =
        .error e → e.position = part.1 := by
      intro reason h
      obtain rfl := Except.error.inj h
      rfl
    rw [checkPlacement] at h
    iterate 4
      split at h
      · exact ⟨part, List.mem_cons_self, hhere h⟩
    obtain ⟨part', hpart', he⟩ := ih h
    exact ⟨part', List.mem_cons_of_mem _ hpart', he⟩

/-- An atom that may not be repeated is refused at its beginning. -/
theorem position_of_limitRepeat {pins : Pins} {occurs : Extent}
    (h : limitRepeat pins occurs position = .error e) : e.position = position := by
  have hrepeat : ∀ {side e}, checkRepeat pins occurs position side = .error e →
      e.position = position := by
    intro side e h
    unfold checkRepeat at h
    split at h
    · obtain rfl := Except.error.inj h
      rfl
    · split at h
      · obtain rfl := Except.error.inj h
        rfl
      · cases h
  unfold limitRepeat at h
  split at h
  · cases h
  · simp only [check_eq_error, bind_eq_error] at h
    rcases h with ⟨-, rfl⟩ | ⟨-, h | ⟨_, -, h | ⟨_, -, h⟩⟩⟩
    · rfl
    · exact hrepeat h
    · exact hrepeat h
    · split at h <;> cases h

namespace Frame

variable {f f' : Frame} {t : Term}

/-- What may not be followed by anything is refused at a position that has been read. -/
theorem Holds.position_le_of_checkOpen (h : f.Holds t stop) (he : t.checkOpen = .error e) :
    e.position ≤ stop := by
  have hstage := h.stage_le
  unfold Term.checkOpen at he
  split at he
  next p tree heq =>
    obtain rfl := Except.error.inj he
    exact hstage p (by rw [heq]; rfl)
  next p tree look heq =>
    obtain rfl := Except.error.inj he
    exact hstage p (by rw [heq]; rfl)
  next => cases he

/-- The parts of a term begin up to `stop`. -/
theorem Holds.parts_le (h : f.Holds t stop) : ∀ part ∈ t.parts, part.1 ≤ stop := by
  intro part hpart
  rcases List.mem_append.mp hpart with hpart | hpart
  · rcases List.mem_append.mp hpart with hpart | hpart
    · exact h.behind_le part (Option.mem_toList.mp hpart)
    · rw [List.mem_singleton.mp hpart]
      exact h.bodyAt_le
  · have hahead := Option.mem_toList.mp hpart
    unfold Term.ahead? at hahead
    split at hahead
    next p tree look hstage =>
      obtain rfl := Option.some.inj hahead
      exact h.stage_le p (by rw [hstage]; rfl)
    next => cases hahead

/-- So is a term that cannot be finished. -/
theorem Holds.position_le_of_finish (h : f.Holds t stop) {source : String}
    (he : t.finish source = .error e) : e.position ≤ stop := by
  simp only [Term.finish, bind_eq_error, check_eq_error] at he
  rcases he with he | ⟨tree, -, ⟨-, rfl⟩ | ⟨-, ⟨-, rfl⟩ | ⟨-, he⟩⟩⟩
  · unfold Term.looked at he
    split at he
    · cases he
    · simp only [bind_eq_error] at he
      rcases he with he | ⟨_, -, he⟩
      · obtain ⟨part, hpart, hposition⟩ := position_of_checkPlacement he
        rw [hposition]
        exact h.parts_le part hpart
      · cases he
  · exact h.bodyAt_le
  · exact h.bodyAt_le
  · cases he

/-- Ending a term is refused, if at all, at a position that has been read. -/
theorem InOrder.position_le_of_endTerm (h : f.InOrder stop)
    (he : f.endTerm pattern position = .error e) : e.position ≤ stop := by
  unfold endTerm at he
  split at he
  · cases he
  next t hterm =>
    simp only [bind_eq_error] at he
    rcases he with he | ⟨_, -, he⟩
    · exact (h.term t hterm).position_le_of_finish he
    · cases he

/-- So is making ready for an atom. -/
theorem InOrder.position_le_of_ready (h : f.InOrder stop)
    (he : f.ready pattern position = .error e) : e.position ≤ stop := by
  unfold Frame.ready at he
  split at he
  · cases he
  next t hterm =>
    simp only [bind_eq_error] at he
    rcases he with he | ⟨_, -, he⟩
    · exact (h.term t hterm).position_le_of_checkOpen he
    · split at he
      · cases he
      · exact h.position_le_of_endTerm he

theorem InOrder.position_le_of_closing (h : f.InOrder position)
    (he : f.closing position = .error e) : e.position ≤ position := by
  simp only [Frame.closing, bind_eq_error] at he
  rcases he with he | ⟨_, -, he⟩
  · exact h.termAt.position_le_of_checkOpen he
  · cases he

/-- The alternative that a bar ends is refused, if at all, at a position that has been read. The
term that was under way is one of those that are checked. -/
theorem InOrder.position_le_of_branch (h : f.InOrder position)
    (hlt : ∀ t ∈ f.term, t.start < position) (he : f.branch pattern position = .error e) :
    e.position ≤ position := by
  simp only [branch, bind_eq_error] at he
  rcases he with he | ⟨f', hend, he | ⟨_, -, he⟩⟩
  · exact h.position_le_of_endTerm he
  · obtain ⟨part, hpart, hposition⟩ := position_of_checkPlacement he
    have hf' : f'.InOrder position := by
      rcases of_endTerm hend with ⟨-, rfl⟩ | ⟨t, source, tree, hterm, -, rfl⟩
      · exact h
      · exact h.finished (h.term t hterm) (hlt t hterm) tree
    rw [hposition]
    exact (hf'.lt_stop part hpart).le
  · split at he <;> cases he

theorem InOrder.position_le_of_tree (h : f.InOrder position)
    (hlt : ∀ t ∈ f.term, t.start < position) (he : f.tree pattern position = .error e) :
    e.position ≤ position := by
  simp only [Frame.tree, bind_eq_error] at he
  rcases he with he | ⟨last, -, he⟩
  · exact h.position_le_of_branch hlt he
  · split at he <;> cases he

end Frame

namespace Reader

variable {r r' : Reader}

/-- A quantifier is refused, if at all, at a position that has been read, or where it is itself. -/
theorem InOrder.position_le_of_quantify (h : r.InOrder) (hn : r.position ≤ n)
    {occurs : Except Error Extent} (hoccurs : ∀ e, occurs = .error e → e.position ≤ n)
    (he : r.quantify pattern stop occurs = .error e) : e.position ≤ n := by
  unfold Reader.quantify at he
  split at he
  next place atom hstage =>
    simp only [bind_eq_error] at he
    rcases he with he | ⟨_, -, he | ⟨_, -, he⟩⟩
    · exact hoccurs e he
    · rw [position_of_limitRepeat he]
      exact (h.stage_le hstage place rfl).trans hn
    · cases he
  next =>
    simp only [bind_eq_error, discard_eq_error] at he
    rcases he with he | ⟨_, -, he⟩
    · exact (h.nested.inOrder.position_le_of_ready he).trans hn
    · obtain rfl := Except.error.inj he
      exact hn

/-- What is wrong with a lexeme, in itself or where it stands, is met inside the text. A token may
be refused because of what it ends or follows, which has been read already. -/
theorem InOrder.position_le_of_take (h : r.InOrder) (hn : r.position ≤ n) {l : Lexeme}
    (hl : ∀ e, l.error? = some e → r.position + e.position ≤ n)
    (he : r.take pattern stop l = .error e) : e.position ≤ n := by
  have hframe := h.nested.inOrder
  have hready : ∀ {e}, r.frame.ready pattern r.position = .error e → e.position ≤ n :=
    fun he => (hframe.position_le_of_ready he).trans hn
  have hclosing : ∀ {e}, r.frame.closing r.position = .error e → e.position ≤ n :=
    fun he => (hframe.position_le_of_closing he).trans hn
  cases l with
  | bar =>
    simp only [Reader.take, bind_eq_error] at he
    rcases he with he | ⟨_, -, he⟩
    · exact (hframe.position_le_of_branch h.start_lt he).trans hn
    · cases he
  | close =>
    simp only [Reader.take, Reader.close, bind_eq_error] at he
    rcases he with he | ⟨_, -, he⟩
    · exact (hframe.position_le_of_tree h.start_lt he).trans hn
    · split at he
      · obtain rfl := Except.error.inj he
        exact hn
      · cases he
  | caret | lookbehind =>
    simp only [Reader.take, bind_eq_error, check_eq_error] at he
    rcases he with he | ⟨_, -, ⟨-, rfl⟩ | ⟨-, he⟩⟩
    · exact hready he
    · exact hn
    · cases he
  | group | atom =>
    simp only [Reader.take, bind_eq_error] at he
    rcases he with he | ⟨_, -, he⟩
    · exact hready he
    · cases he
  | dollar | lookahead =>
    simp only [Reader.take, bind_eq_error] at he
    rcases he with he | ⟨_, -, he⟩
    · exact hclosing he
    · cases he
  | negativeLookbehind =>
    simp only [Reader.take, bind_eq_error, discard_eq_error, throw_eq_error] at he
    rcases he with he | ⟨_, -, rfl⟩
    · exact hready he
    · exact hn
  | negativeLookahead =>
    simp only [Reader.take, bind_eq_error, discard_eq_error, throw_eq_error] at he
    rcases he with he | ⟨_, -, rfl⟩
    · exact hclosing he
    · exact hn
  | question =>
    rw [Reader.take, Reader.question] at he
    split at he
    · cases he
    · exact h.position_le_of_quantify hn (fun _ he => by cases he) he
  | times occurs => exact h.position_le_of_quantify hn (fun _ he => by cases he) he
  | brokenTimes e' =>
    refine h.position_le_of_quantify hn (fun _ he' => ?_) he
    obtain rfl := Except.error.inj he'
    exact hl e' rfl
  | broken e' =>
    simp only [Reader.take, bind_eq_error, discard_eq_error, throw_eq_error] at he
    rcases he with he | ⟨_, -, rfl⟩
    · exact hready he
    · exact hl e' rfl

theorem InOrder.position_le_of_step (h : r.InOrder) (hn : r.position ≤ n) {t : Token}
    (ht : ∀ e, t.lexeme.error? = some e → r.position + e.position ≤ n)
    (he : r.step pattern t = .error e) : e.position ≤ n := by
  rw [Reader.step, map_eq_error] at he
  exact h.position_le_of_take hn ht he

/-- The end of the text is refused, if at all, at a position that has been read. -/
theorem InOrder.position_le_of_finish (h : r.InOrder) {whole : Bool}
    (he : r.finish pattern whole = .error e) : e.position ≤ r.position := by
  have hframe := h.nested.inOrder
  simp only [Reader.finish, bind_eq_error, check_eq_error] at he
  rcases he with he | ⟨_, -, ⟨-, rfl⟩ | ⟨-, he⟩⟩
  · exact hframe.position_le_of_tree h.start_lt he
  · exact (hframe.opening_le.trans hframe.start_le).trans hframe.branchStart_le
  · split at he
    next place hlook =>
      obtain rfl := Except.error.inj he
      exact h.lookaround_le place hlook
    next => cases he

end Reader

end Exemplar.Pattern
