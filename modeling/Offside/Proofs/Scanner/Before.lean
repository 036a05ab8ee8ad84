import Offside.Proofs.Scanner.Steps
import Offside.Proofs.Token.Shifted

/-!
# Scanners with more text ahead

What a scanner delivers depends on the text ahead and on the open blocks, but not on the place.
`Scanner.Before` relates a scanner to one at another place with more text ahead, from white space
on. Both make the same steps (`Step.before`) and deliver the same tokens, up to the last line break
where there is more text after it (`Delivers.upToLastBreak`).
-/

namespace Offside

open Text (Spaced Separated)
open Token (Moved Shift Shifted)

theorem LineStart.seek_append {breaks width : Nat} {text : List Char} (more : List Char)
    (h : (seek breaks width text).rest ≠ []) :
    seek breaks width (text ++ more) =
      { seek breaks width text with rest := (seek breaks width text).rest ++ more } := by
  fun_induction seek breaks width text with
  | case1 breaks width rest ih =>
    rw [List.cons_append, seek, ih h]
  | case2 breaks width rest ih =>
    rw [List.cons_append, seek, ih h]
  | case3 breaks width rest hspace hnewline =>
    cases rest with
    | nil => exact absurd rfl h
    | cons c rest =>
      rw [List.cons_append, seek]
      · exact fun others heq => hspace rest (by rw [(List.cons.inj heq).1])
      · exact fun others heq => hnewline rest (by rw [(List.cons.inj heq).1])

/-- Text behind a line does not change its level, unless the line has been empty so far. -/
theorem LineStart.level_append {start : LineStart} {more : List Char}
    (h : ¬ (start.rest = [] ∧ more ≠ [])) :
    ({ start with rest := start.rest ++ more } : LineStart).level = start.level := by
  have hempty : (start.rest ++ more).isEmpty = start.rest.isEmpty := by
    cases hnil : start.rest with
    | nil =>
      obtain rfl : more = [] := Decidable.byContradiction fun hne => h ⟨hnil, hne⟩
      rfl
    | cons => rfl
  rw [LineStart.level, LineStart.level, hempty]

namespace Scanner

variable {tokens : List Token} {more : List Char} {scanner scanner' after : Scanner} {token : Token}

/-- The same scanner at another place, with more text ahead. -/
structure Before (more : List Char) (scanner scanner' : Scanner) : Prop where
  rest : scanner'.rest = scanner.rest ++ more
  layout : scanner'.layout = scanner.layout
  pending : Moved [] scanner.pending scanner'.pending

theorem Before.pending_nil (h : Before more scanner scanner') (hpending : scanner.pending = []) :
    scanner'.pending = [] := by
  have hmoved := h.pending
  rw [hpending] at hmoved
  generalize scanner'.pending = waiting at hmoved
  cases hmoved
  rfl

theorem Before.rest_skipSpaces (h : Before more scanner scanner')
    (hne : scanner.skipSpaces.rest ≠ []) :
    scanner'.skipSpaces.rest = scanner.skipSpaces.rest ++ more := by
  show scanner'.rest.dropWhile (· == ' ') = scanner.rest.dropWhile (· == ' ') ++ more
  rw [h.rest, List.dropWhile_append, if_neg]
  exact fun hempty => hne (List.isEmpty_iff.1 hempty)

/-- The scanner is at the last line break of its text, which has only white space after it. -/
structure LastBreak (scanner : Scanner) (blank : List Char) : Prop where
  pending : scanner.pending = []
  rest : scanner.skipSpaces.rest = '\n' :: blank
  blank : (LineStart.seek 1 0 blank).rest = []

theorem LastBreak.isBreak {blank : List Char} (hlast : scanner.LastBreak blank)
    (h : Delivers scanner tokens after) : ∀ token ∈ tokens, token.IsBreak := by
  cases tokens with
  | nil => simp
  | cons token tokens =>
    obtain ⟨middle, hstep, hend, hrest⟩ := h.exists_step
    have hbreaks : scanner.PendingBreaks := by simp [PendingBreaks, hlast.pending]
    obtain ⟨-, rfl⟩ := hstep.next_eq
    have hbreaks' := (regular_next hbreaks).2
    generalize scanner.next.2 = middle at hstep hrest hbreaks'
    cases hstep with
    | release hpending => simp [hlast.pending] at hpending
    | stop => cases hend
    | lineBreak _ hrest' =>
      rw [hlast.rest] at hrest'
      obtain rfl := (List.cons.inj hrest').2
      exact List.forall_mem_cons.2 ⟨.inl ⟨rfl, rfl⟩, hrest.isBreak hbreaks' hlast.blank⟩
    | cut _ hcut =>
      rw [hlast.rest] at hcut
      cases hcut

/-- With more text ahead a scanner makes the same step. The exception is the last line break. -/
theorem Step.before {lines : Nat → Nat → Prop} (h : scanner.Step token after)
    (hmore : Separated more) (hbefore : Before more scanner scanner')
    (hbreaks : scanner.PendingBreaks) (hend : token.isEnd = false)
    (hlines : ∀ line line' breaks, lines line line' → lines (line + breaks) (line' + breaks))
    (hline : lines scanner.line scanner'.line) :
    (∃ line column after', scanner'.Step (token.moved line column) after' ∧
      (token.kind.isSynthetic = false → lines token.line line) ∧ Before more after after' ∧
        lines after.line after'.line) ∨ more ≠ [] ∧ ∃ blank, scanner.LastBreak blank := by
  cases h with
  | @release _ others hpending =>
    have hmoved := hbefore.pending
    rw [hpending] at hmoved
    generalize hpending' : scanner'.pending = waiting at hmoved
    obtain _ | ⟨line, column, hothers⟩ := hmoved
    have hsynthetic := (hbreaks token (by simp [hpending])).isSynthetic
    refine .inl ⟨line, column, _, .release hpending', fun hkind => ?_,
      ⟨hbefore.rest, hbefore.layout, hothers⟩, hline⟩
    rw [hsynthetic] at hkind
    cases hkind
  | stop => cases hend
  | @lineBreak rest kinds hpending hrest hkinds =>
    have hrest' := hbefore.rest_skipSpaces (by simp [hrest])
    rw [hrest, List.cons_append] at hrest'
    -- The line behind the last break has level 0 where the text ends, and its own width where more
    -- of it follows.
    by_cases hne : (LineStart.seek 1 0 rest).rest = [] ∧ more ≠ []
    · exact .inr ⟨hne.2, rest, hpending, hrest, hne.1⟩
    · have hseek : LineStart.seek 1 0 (rest ++ more) =
          { LineStart.seek 1 0 rest with rest := (LineStart.seek 1 0 rest).rest ++ more } := by
        by_cases hnil : more = []
        · rw [hnil, List.append_nil, List.append_nil]
        · exact LineStart.seek_append more fun h => hne ⟨h, hnil⟩
      have hlevel : (LineStart.seek 1 0 (rest ++ more)).level = (LineStart.seek 1 0 rest).level := by
        rw [hseek, LineStart.level_append hne]
      rw [← hlevel, ← hbefore.layout] at hkinds
      refine .inl ⟨_, _, _, .lineBreak (hbefore.pending_nil hpending) hrest' hkinds,
        (fun h => by cases h), ⟨?_, ?_, ?_⟩, ?_⟩
      · show (LineStart.seek 1 0 (rest ++ more)).rest = _
        rw [hseek]
        rfl
      · show scanner'.layout.enter _ = scanner.layout.enter _
        rw [hbefore.layout, hlevel]
      · exact .map (fun _ => ⟨_, _, rfl⟩) kinds
      · show lines (scanner.line + _) (scanner'.line + (LineStart.seek 1 0 (rest ++ more)).breaks)
        rw [hseek]
        exact hlines _ _ _ hline
  | @cut kind value rest hpending hcut =>
    have hne : scanner.skipSpaces.rest ≠ [] := by
      intro hnil
      rw [hnil] at hcut
      cases hcut
    have hcut' := Token.cut?_append hmore hcut
    rw [← hbefore.rest_skipSpaces hne] at hcut'
    exact .inl ⟨_, _, _, .cut (hbefore.pending_nil hpending) hcut', fun _ => hline,
      ⟨rfl, hbefore.layout, .nil⟩, hline⟩

/-- With more text ahead a scanner delivers the same tokens up to the last line break. -/
theorem Delivers.upToLastBreak (file file' : String) (place place' : Origin → Origin)
    (h : Delivers scanner tokens after) (hmore : Separated more)
    (hbefore : Before more scanner scanner') (hbreaks : scanner.PendingBreaks)
    (hlines : ∀ line line' breaks, (Shift.elsewhere file file' place place' []).Lines line line' →
      (Shift.elsewhere file file' place place' []).Lines (line + breaks) (line' + breaks))
    (hline : (Shift.elsewhere file file' place place' []).Lines scanner.line scanner'.line) :
    ∃ early late middle early' middle', tokens = early ++ late ∧
      Delivers scanner early middle ∧ Delivers middle late after ∧
        Delivers scanner' early' middle' ∧ Before more middle middle' ∧
          Shifted (.elsewhere file file' place place' []) () early early' ∧
            (late = [] ∨ more ≠ [] ∧ ∃ blank, middle.LastBreak blank) := by
  induction h generalizing scanner' with
  | @refl scanner =>
    exact ⟨[], [], scanner, [], scanner', rfl, .refl, .refl, .refl, hbefore, .nil rfl, .inl rfl⟩
  | @step scanner after token tokens hresult hend hrest ih =>
    obtain ⟨line, column, after', hstep', htoken, hafter, hline'⟩ | hlast :=
      (step_next hresult).before hmore hbefore hbreaks hend hlines hline
    · obtain ⟨hresult', rfl⟩ := hstep'.next_eq
      obtain ⟨early, late, middle, early', middle', rfl, hearly, hlate, hearly', hmiddle, hshifted,
        hlast⟩ := ih hafter (regular_next hbreaks).2 hline'
      exact ⟨token :: early, late, middle, _, middle', rfl, .step hresult hend hearly, hlate,
        .step hresult' hend hearly', hmiddle, .cons column trivial htoken hshifted, hlast⟩
    · exact ⟨[], token :: tokens, scanner, [], scanner', rfl, .refl, .step hresult hend hrest, .refl,
        hbefore, .nil rfl, .inr hlast⟩

/-- Tokens that do not end in a line break are delivered with more text ahead, too. -/
theorem Delivers.shifted (file file' : String) (place place' : Origin → Origin)
    (h : Delivers scanner tokens after) (hmore : Separated more)
    (hbefore : Before more scanner scanner') (hbreaks : scanner.PendingBreaks)
    (hlast : more = [] ∨ ∀ token ∈ tokens.getLast?, ¬ token.IsBreak)
    (hlines : ∀ line line' breaks, (Shift.elsewhere file file' place place' []).Lines line line' →
      (Shift.elsewhere file file' place place' []).Lines (line + breaks) (line' + breaks))
    (hline : (Shift.elsewhere file file' place place' []).Lines scanner.line scanner'.line) :
    ∃ tokens' after', Delivers scanner' tokens' after' ∧ Before more after after' ∧
      Shifted (.elsewhere file file' place place' []) () tokens tokens' := by
  obtain ⟨early, late, middle, early', middle', rfl, -, hlate, hearly', hmiddle, hshifted, hend⟩ :=
    h.upToLastBreak file file' place place' hmore hbefore hbreaks hlines hline
  obtain rfl : late = [] := by
    refine hend.elim id fun ⟨hne, blank, hblank⟩ => ?_
    cases hlater : late.getLast? with
    | none => exact List.getLast?_eq_none_iff.1 hlater
    | some token =>
      have hbreak := hblank.isBreak hlate token (List.mem_of_getLast? hlater)
      refine absurd hbreak (hlast.resolve_left hne token ?_)
      rw [List.getLast?_append, hlater]
      rfl
  cases hlate
  rw [List.append_nil]
  exact ⟨early', middle', hearly', hmiddle, hshifted⟩

theorem Delivers.before (h : Delivers scanner tokens after) (hmore : Spaced more)
    (hbefore : Before more scanner scanner') (hbreaks : scanner.PendingBreaks)
    (hlast : ∀ token ∈ tokens.getLast?, ¬ token.IsBreak) :
    ∃ tokens' after', Delivers scanner' tokens' after' ∧ Before more after after' ∧
      Moved [] tokens tokens' := by
  obtain ⟨tokens', after', hdelivers, hafter, hshifted⟩ :=
    h.shifted "" "" (fun _ => {}) (fun _ => {}) hmore.separated hbefore hbreaks (.inr hlast)
      (fun _ _ _ _ => rfl) rfl
  exact ⟨tokens', after', hdelivers, hafter, (Token.shifted_anywhere_iff "" "").1 hshifted⟩

end Scanner

end Offside
