import Offside.Proofs.Scanner.Delivers

/-!
# The steps of a scanner

`Scanner.Step` lists what a scanner can do when it delivers a token: release one that waits, end,
break the line, or cut a token off. These are the cases of `Scanner.Goes` without a fault and without
the events. Every token comes by one of them (`step_next`), so that a fact about tokens is an argument
by four cases.
-/

namespace Offside

theorem Token.IsBreak.isSynthetic {token : Token} (h : token.IsBreak) :
    token.kind.isSynthetic = true := by
  rcases h with ⟨hkind, -⟩ | ⟨hkind | hkind, -⟩ <;> rw [hkind] <;> rfl

namespace Scanner

/-- The scanner delivers the token, and goes on as the scanner after it. -/
inductive Step (scanner : Scanner) : Token → Scanner → Prop
  | release {token : Token} {others : List Token} (hpending : scanner.pending = token :: others) :
    Step scanner token { scanner with pending := others }
  | stop (hpending : scanner.pending = []) (hrest : scanner.skipSpaces.rest = []) :
    Step scanner scanner.skipSpaces.endToken scanner.skipSpaces
  | lineBreak {rest : List Char} {kinds : List Token.Kind} (hpending : scanner.pending = [])
    (hrest : scanner.skipSpaces.rest = '\n' :: rest)
    (hkinds : scanner.layout.breaks? (LineStart.seek 1 0 rest).level = some kinds) :
    Step scanner ((scanner.skipSpaces.enterLine (LineStart.seek 1 0 rest)).mark .newline "\n")
      { scanner.skipSpaces.enterLine (LineStart.seek 1 0 rest) with
        pending := kinds.map ((scanner.skipSpaces.enterLine (LineStart.seek 1 0 rest)).mark · "") }
  | cut {kind : Token.Kind} {value : String} {rest : List Char} (hpending : scanner.pending = [])
    (hcut : Token.cut? scanner.skipSpaces.rest = some (kind, value, rest)) :
    Step scanner { kind, value, line := scanner.line, column := scanner.skipSpaces.column }
      { scanner.skipSpaces with
        rest, column := scanner.skipSpaces.column + value.length, pending := [] }

theorem Goes.step {scanner after : Scanner} {delivery : Delivery} {token : Token}
    (h : scanner.Goes delivery after) (hresult : delivery.result = .ok token) :
    scanner.Step token after := by
  cases h with
  | release hpending =>
    cases hresult
    exact .release hpending
  | stop hpending hrest =>
    cases hresult
    exact .stop hpending hrest
  | lineBreak hpending hrest hline hlevel hkinds =>
    subst hline hlevel
    cases hresult
    exact .lineBreak hpending hrest hkinds
  | cut hpending hcut htoken =>
    subst htoken
    cases hresult
    exact .cut hpending hcut
  | indentation | unrecognised => cases hresult

theorem step_next {scanner : Scanner} {token : Token}
    (hresult : scanner.next.1.result = .ok token) : scanner.Step token scanner.next.2 :=
  scanner.goes_next.step hresult

theorem Step.goes {scanner after : Scanner} {token : Token} (h : scanner.Step token after) :
    ∃ events, scanner.Goes ⟨.ok token, events⟩ after := by
  cases h with
  | release hpending => exact ⟨_, .release hpending⟩
  | stop hpending hrest => exact ⟨_, .stop hpending hrest⟩
  | lineBreak hpending hrest hkinds => exact ⟨_, .lineBreak hpending hrest rfl rfl hkinds⟩
  | cut hpending hcut => exact ⟨_, .cut hpending hcut rfl⟩

/-- A step is what the scanner does next. -/
theorem Step.next_eq {scanner after : Scanner} {token : Token} (h : scanner.Step token after) :
    scanner.next.1.result = .ok token ∧ scanner.next.2 = after := by
  obtain ⟨events, hgoes⟩ := h.goes
  rw [hgoes.next_eq]
  exact ⟨rfl, rfl⟩

/-- The first of some tokens in a row is delivered by a step. -/
theorem Delivers.exists_step {scanner after : Scanner} {token : Token} {tokens : List Token}
    (h : Delivers scanner (token :: tokens) after) :
    ∃ middle, scanner.Step token middle ∧ token.isEnd = false ∧ Delivers middle tokens after := by
  obtain _ | ⟨hresult, hend, hrest⟩ := h
  exact ⟨scanner.next.2, step_next hresult, hend, hrest⟩

end Scanner

end Offside
