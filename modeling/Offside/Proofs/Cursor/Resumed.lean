import Offside.Proofs.Cursor.Lockstep

/-!
# Loops that are taken up again

A loop that stops where another would go on is the beginning of that other loop
(`ParseM.StopsEarlier`): what fails in it fails in both, and where it answers the longer loop has come
to the same place, with more rounds left than there are tokens (`StopsEarlier.exists_rest`).
-/

namespace Offside.ParseM

variable {α β γ σ : Type} {cursor after : Cursor}

/-! ## Rounds -/

section

variable {round : σ → ParseM (Round σ β)} {bound : Nat} {state next : σ} {result : β} {stop : Stop}

theorem loopWithin_of_again (h : round state cursor = .ok (.again next) after) :
    loopWithin round (bound + 1) state cursor = loopWithin round bound next after :=
  bind_of_ok h

theorem loopWithin_of_done (h : round state cursor = .ok (.done result) after) :
    loopWithin round (bound + 1) state cursor = .ok result after :=
  bind_of_ok h

theorem loopWithin_of_error (h : round state cursor = .error stop after) :
    loopWithin round (bound + 1) state cursor = .error stop after :=
  bind_of_error h

/-- A loop that answers does so in its last round. -/
theorem exists_done_of_loopWithin (h : loopWithin round bound state cursor = .ok result after) :
    ∃ state' cursor', round state' cursor' = .ok (.done result) after := by
  induction bound generalizing state cursor with
  | zero => cases h
  | succ bound ih =>
    cases hround : round state cursor with
    | ok step middle =>
      cases step with
      | again next =>
        rw [loopWithin_of_again hround] at h
        exact ih h
      | done out =>
        rw [loopWithin_of_done hround] at h
        cases h
        exact ⟨state, cursor, hround⟩
    | error stop middle =>
      rw [loopWithin_of_error hround] at h
      cases h

end

/-! ## Loops that stop earlier -/

/-- A round either stops and changes nothing, or it is the other round and goes on. -/
def StopsEarlier (round round' : σ → ParseM (Round σ σ)) : Prop :=
  ∀ state cursor, round state cursor = .ok (.done state) cursor ∨
    round state cursor = round' state cursor ∧
      ∀ result after, round' state cursor ≠ .ok (.done result) after

namespace StopsEarlier

variable {round round' : σ → ParseM (Round σ σ)} {bound : Nat} {state result : σ}

/-- What may become of a pair of rounds: the first one stops, both lead to another round, or both
fail. -/
theorem cases (h : StopsEarlier round round') (state : σ) (cursor : Cursor) :
    round state cursor = .ok (.done state) cursor ∨
    (∃ next after, round state cursor = .ok (.again next) after ∧
      round' state cursor = .ok (.again next) after) ∨
    ∃ stop after, round state cursor = .error stop after ∧
      round' state cursor = .error stop after := by
  obtain hdone | ⟨hsame, hgoes⟩ := h state cursor
  · exact .inl hdone
  · rw [hsame]
    cases hround : round' state cursor with
    | error stop after => exact .inr (.inr ⟨stop, after, rfl, rfl⟩)
    | ok step after =>
      cases step with
      | again next => exact .inr (.inl ⟨next, after, rfl, rfl⟩)
      | done out => exact absurd hround (hgoes out after)

/-- What fails before the loop stops fails in the longer loop too. -/
theorem error (h : StopsEarlier round round') {stop : Stop}
    (hrun : loopWithin round bound state cursor = .error stop after) :
    loopWithin round' bound state cursor = .error stop after := by
  induction bound generalizing state cursor with
  | zero => exact hrun
  | succ bound ih =>
    obtain hdone | ⟨next, middle, hround, hround'⟩ | ⟨stop', middle, hround, hround'⟩ :=
      h.cases state cursor
    · rw [loopWithin_of_done hdone] at hrun
      cases hrun
    · rw [loopWithin_of_again hround] at hrun
      rw [loopWithin_of_again hround']
      exact ih hrun
    · rw [loopWithin_of_error hround] at hrun
      rw [loopWithin_of_error hround']
      exact hrun

/-- The longer loop comes to the end of the shorter one, and still has more rounds than there are
tokens. -/
theorem exists_rest (h : StopsEarlier round round') {file : String} {last : Token}
    (hagain : ∀ {state next : σ} {cursor after : Cursor}, cursor.Sound file last →
      round' state cursor = .ok (.again next) after →
      after.Sound file last ∧ after.view.length < cursor.view.length)
    (hcursor : cursor.Sound file last) (hbound : cursor.view.length < bound)
    (hrun : loopWithin round bound state cursor = .ok result after) :
    after.Sound file last ∧ ∃ rest, after.view.length < rest ∧
      loopWithin round' bound state cursor = loopWithin round' rest result after := by
  induction bound generalizing state cursor with
  | zero => cases hrun
  | succ bound ih =>
    obtain hdone | ⟨next, middle, hround, hround'⟩ | ⟨stop, middle, hround, -⟩ :=
      h.cases state cursor
    · rw [loopWithin_of_done hdone] at hrun
      cases hrun
      exact ⟨hcursor, bound + 1, hbound, rfl⟩
    · obtain ⟨hmiddle, hless⟩ := hagain hcursor hround'
      rw [loopWithin_of_again hround] at hrun
      rw [loopWithin_of_again hround']
      exact ih hmiddle (by omega) hrun
    · rw [loopWithin_of_error hround] at hrun
      cases hrun

end StopsEarlier

/-! ## Runs that end alike -/

/-- Two runs end in values for which `Q` holds, at the same place, or in the same fault. The events on
the way and what is spared do not matter. -/
def EndAlike (Q : α → β → Prop) :
    EStateM.Result Stop Cursor α → EStateM.Result Stop Cursor β → Prop :=
  EndTogether (fun fault _ fault' _ => fault' = fault) fun a b after after' =>
    Q a b ∧ ∃ log spare, after' = { after with log, spare }

/-- What is made of the value of the first run, and at its place, ends alike too. -/
theorem EndAlike.lift {Q : α → β → Prop} {R : γ → β → Prop} {run : EStateM.Result Stop Cursor α}
    {run' : EStateM.Result Stop Cursor β} {lifted : EStateM.Result Stop Cursor γ}
    (h : EndAlike Q run run')
    (hok : ∀ a after, run = .ok a after → ∃ c, lifted = .ok c after ∧ ∀ b, Q a b → R c b)
    (herror : ∀ stop after, run = .error stop after → lifted = .error stop after) :
    EndAlike R lifted run' := by
  cases run with
  | ok a after =>
    obtain ⟨c, hlifted, hR⟩ := hok a after rfl
    rw [hlifted]
    cases run' with
    | ok b after' => exact ⟨hR b h.1, h.2⟩
    | error => exact h.elim
  | error stop after =>
    rw [herror stop after rfl]
    cases stop with
    | exhausted => exact h.elim
    | fault fault =>
      cases run' with
      | ok => exact h.elim
      | error stop' => cases stop' <;> exact h

end Offside.ParseM
