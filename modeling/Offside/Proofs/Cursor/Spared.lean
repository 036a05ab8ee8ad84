import Offside.Proofs.Cursor.Lockstep

/-!
# Runs that may go on longer

`Lockstep.spared` relates a run to one whose loops and nestings are granted more. Parsers that keep
in it answer the same (`ParseM.Agrees.outcome_eq`), so what a parser answers does not depend on how
much it is granted.
-/

namespace Offside

namespace ParseM

variable {α : Type}

/-- What a run ends in. -/
def outcome (m : ParseM α) (cursor : Cursor) : Except Stop α :=
  match m cursor with
  | .ok a _ => .ok a
  | .error stop _ => .error stop

end ParseM

/-- A run, and the same run where more is spared. The events on the way do not matter. -/
def Lockstep.spared (file : String) (last : Token) : Lockstep where
  cursors cursor cursor' :=
    cursor.Sound file last ∧ ∃ log spare, cursor' = { cursor with log, spare }
  tokens token token' := token' = token ∧ (token.isEnd = true → token.value = "")
  stops fault _ fault' _ := fault' = fault
  place := id
  place' := id
  moved := by
    rintro token token' ⟨rfl, -⟩
    exact ⟨token'.line, token'.column, rfl⟩
  regular h := h.2
  current := by
    rintro cursor cursor' ⟨h, log, spare, rfl⟩
    exact ⟨rfl, h.current.2⟩
  length_view := by
    rintro cursor cursor' ⟨-, log, spare, rfl⟩
    rfl
  advance := by
    rintro cursor cursor' ⟨h, log, spare, rfl⟩
    have hafter {after : Cursor} (hrun : ParseM.advance cursor = .ok () after) :
        cursor.Leads file last after ∧ after.view = cursor.view.tail :=
      ParseM.leads_of_advance h hrun
    rw [ParseM.advance_eq] at hafter
    rw [ParseM.advance_eq, ParseM.advance_eq]
    dsimp only
    cases hresult : cursor.stream.next.1.result with
    | ok token =>
      rw [hresult] at hafter
      obtain ⟨hleads, hview⟩ := hafter rfl
      exact ⟨⟨hleads.sound, _, _, rfl⟩, hview⟩
    | error fault => exact rfl
  fault := by
    rintro cursor cursor' token token' cause ⟨h, log, spare, rfl⟩ ⟨rfl, -⟩ -
    rfl
  note := by
    rintro cursor cursor' event event' ⟨h, log, spare, rfl⟩ - -
    exact ⟨h.log _, _, _, rfl⟩
  place_eq := by
    rintro cursor cursor' token token' ⟨-, log, spare, rfl⟩ ⟨rfl, -⟩
    rfl

namespace ParseM.Agrees

variable {α : Type} {file : String} {last : Token} {n : Nat} {P : Token → Prop}
  {cursor after : Cursor} {m m' : ParseM α} {Q : α → α → Nat → Prop}

/-- Parsers in lockstep answer the same, however much is spared. Neither runs out of its budget. -/
theorem outcome_eq (h : Agrees (.spared file last) n P m m' Q)
    (hQ : ∀ a b taken, Q a b taken → b = a) (hcursor : cursor.Sound file last)
    (hlen : cursor.view.length < n) (hP : P cursor.current) (spare : Nat) :
    m'.outcome { cursor with spare } = m.outcome cursor ∧ m.outcome cursor ≠ .error .exhausted := by
  have hboth := h cursor { cursor with spare } ⟨hcursor, _, _, rfl⟩ hlen hP
  unfold outcome
  cases hrun : m cursor <;> cases hrun' : m' { cursor with spare } <;> rw [hrun, hrun'] at hboth
  case ok.ok =>
    obtain ⟨-, taken, -, hvalues⟩ := hboth
    exact ⟨congrArg Except.ok (hQ _ _ taken hvalues), nofun⟩
  case ok.error => exact hboth.elim
  case error.ok stop _ _ _ => cases stop <;> exact hboth.elim
  case error.error stop _ stop' _ =>
    cases stop <;> cases stop' <;> try exact hboth.elim
    exact ⟨congrArg (fun fault => Except.error (Stop.fault fault)) hboth, nofun⟩

end ParseM.Agrees

end Offside
