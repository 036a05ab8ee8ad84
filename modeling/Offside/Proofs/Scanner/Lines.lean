import Offside.Proofs.Scanner.Steps

/-!
# The lines of tokens

A scanner moves down its text, and a token stands on the line that the scanner has reached with it.
So the lines of the tokens of a text never decrease (`lines_of_tokenize`), and the line of a token
that is cut off the text is its line in the source (`standsIn_of_tokenize`).
-/

namespace Offside

/-- The token is a part of the text, on the line of its number. -/
def Token.StandsIn (source : String) (token : Token) : Prop :=
  ∃ before after, source.toList = before ++ (token.value.toList ++ after) ∧
    token.line = before.count '\n' + 1

namespace Scanner

/-- The tokens that wait stand on the current line. -/
def PendingHere (scanner : Scanner) : Prop :=
  ∀ token ∈ scanner.pending, token.line = scanner.line

theorem pendingHere_ofText (source : String) (file : Option String) :
    (ofText source file).PendingHere := by
  simp [PendingHere, ofText]

/-- A step moves down, or not at all, and what it delivers stands where it ends. -/
theorem Step.line {scanner after : Scanner} {token : Token} (h : scanner.Step token after)
    (hpending : scanner.PendingHere) :
    token.line = after.line ∧ scanner.line ≤ after.line ∧ after.PendingHere := by
  cases h with
  | release hwaiting =>
    rw [PendingHere, hwaiting, List.forall_mem_cons] at hpending
    exact ⟨hpending.1, Nat.le_refl _, hpending.2⟩
  | stop hnone => exact ⟨rfl, Nat.le_refl _, hpending⟩
  | lineBreak =>
    refine ⟨rfl, Nat.le_add_right _ _, fun later hlater => ?_⟩
    obtain ⟨kind, -, rfl⟩ := List.mem_map.1 hlater
    rfl
  | cut => exact ⟨rfl, Nat.le_refl _, by simp [PendingHere]⟩

theorem Delivers.lines {scanner after : Scanner} {tokens : List Token}
    (h : scanner.Delivers tokens after) (hpending : scanner.PendingHere) :
    (∀ token ∈ tokens, scanner.line ≤ token.line) ∧ tokens.Pairwise (·.line ≤ ·.line) := by
  induction h with
  | refl => simp
  | step hresult _ _ ih =>
    obtain ⟨hline, hdown, hpending'⟩ := (step_next hresult).line hpending
    obtain ⟨hlater, hordered⟩ := ih hpending'
    rw [← hline] at hdown hlater
    refine ⟨List.forall_mem_cons.2 ⟨hdown, fun later hmem => ?_⟩,
      List.pairwise_cons.2 ⟨hlater, hordered⟩⟩
    exact Nat.le_trans hdown (hlater later hmem)

/-- What is cut off the text is found there. -/
theorem Step.standsIn {source : String} {scanner after : Scanner} {token : Token}
    (h : scanner.Step token after) (hplaced : scanner.Placed source)
    (hbreaks : scanner.PendingBreaks) (hkind : token.kind.isSynthetic = false) :
    token.StandsIn source := by
  cases h with
  | release hwaiting =>
    have hbreak := (hbreaks token (by simp [hwaiting])).isSynthetic
    rw [hkind] at hbreak
    cases hbreak
  | stop => cases hkind
  | lineBreak => cases hkind
  | cut _ hcut =>
    obtain ⟨before, htext, hline⟩ := hplaced.skipSpaces.text
    exact ⟨before, _, by rw [htext, Token.eq_append_of_cut? hcut], hline⟩

theorem Delivers.standsIn {source : String} {scanner after : Scanner} {tokens : List Token}
    (h : scanner.Delivers tokens after) (hplaced : scanner.Placed source)
    (hbreaks : scanner.PendingBreaks) :
    ∀ token ∈ tokens, token.kind.isSynthetic = false → token.StandsIn source := by
  induction h with
  | refl => simp
  | step hresult hend _ ih =>
    have hrest := ih ((goes_next _).placed hplaced hresult hend).1 (regular_next hbreaks).2
    exact List.forall_mem_cons.2 ⟨(step_next hresult).standsIn hplaced hbreaks, hrest⟩

end Scanner

variable {source : String} {file : Option String} {tokens : List Token} {last : Token}

theorem lines_of_tokenize (h : (tokenize source file).result = .ok (tokens ++ [last])) :
    tokens.Pairwise (·.line ≤ ·.line) := by
  obtain ⟨after, hdelivers, -⟩ := tokenize_eq_ok_iff.1 h
  exact (hdelivers.lines (Scanner.pendingHere_ofText source file)).2

theorem standsIn_of_tokenize (h : (tokenize source file).result = .ok (tokens ++ [last])) :
    ∀ token ∈ tokens, token.kind.isSynthetic = false → token.StandsIn source := by
  obtain ⟨after, hdelivers, -⟩ := tokenize_eq_ok_iff.1 h
  exact hdelivers.standsIn (Scanner.placed_ofText source file)
    (Scanner.pendingBreaks_ofText source file)

end Offside
