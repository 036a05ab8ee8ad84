import Offside.Proofs.Phrase.Moved
import Offside.Proofs.Scanner.Closing

/-!
# Texts in a row

Two texts one after the other, on lines of their own, have the statements of the first and those of
the second, further down (`parse_append`). The blocks in which the first text ends are closed by the
first line of the second, which has no indentation. So the tokens of the first text stand where they
stood, before those of a closing line (`Scanner.Delivers.closing`), and the second text is read from
the same state as alone, on a later line (`Phrase.Program.exists_start`).
-/

namespace Offside

open Phrase
open Token (Shift Shifted)

/-- A place some lines further down. -/
def Origin.down (lines : Nat) (origin : Origin) : Origin :=
  { origin with line := origin.line + lines }

/-! ## The second text -/

/-- No program begins with an indent token or an outdent token. -/
theorem Phrase.Program.not_isBreak {name : String} {token : Token} {tokens : List Token}
    {contents : List Expr} (h : Program name (token :: tokens) contents [])
    (hnewline : ¬ token.isNewline = true) : ¬ token.IsBreak := by
  intro hbreak
  have hskip := List.dropWhile_cons_of_neg (p := Token.isNewline) (l := tokens) hnewline
  obtain ⟨hstop⟩ | ⟨hexpr, -⟩ := h
  · rw [hskip] at hstop
    cases hstop.1
  · obtain ⟨hskip', hstart, -⟩ := hexpr
    rw [hskip] at hskip'
    cases hskip'
    have hkind := isSynthetic_of_start hstart
    rw [hbreak.isSynthetic] at hkind
    cases hkind

namespace Scanner

/-- The next token is no newline token where neither a space nor a line feed is ahead. -/
theorem At.ahead {scanner after : Scanner} {widths : List Nat} {text : List Char}
    {tokens : List Token} (hat : scanner.At widths text)
    (hhead : ∀ c ∈ text.head?, c ≠ ' ' ∧ c ≠ '\n') (h : scanner.Delivers tokens after) :
    Ahead (¬ ·.isNewline = true) tokens := by
  cases tokens with
  | nil => exact ahead_nil
  | cons token tokens =>
    obtain ⟨middle, hstep, -, -⟩ := h.exists_step
    have hbreaks : scanner.PendingBreaks := by simp [PendingBreaks, hat.pending]
    refine ahead_cons.2 fun hnewline => ?_
    rw [Token.isNewline, beq_iff_eq] at hnewline
    cases hstep with
    | release hpending => simp [hat.pending] at hpending
    | stop => cases hnewline
    | lineBreak _ hrest =>
      have hskip : scanner.rest.dropWhile (· == ' ') = '\n' :: _ := hrest
      rw [hat.rest] at hskip
      cases text with
      | nil => cases hskip
      | cons c text =>
        obtain ⟨hspace, hbreak⟩ := hhead c rfl
        rw [List.dropWhile_cons_of_neg (by simpa using hspace)] at hskip
        exact hbreak (List.cons.inj hskip).1
    | @cut kind _ _ _ hcut =>
      have hkind := Token.Kind.isSynthetic_of_cut? hcut
      rw [show kind = _ from hnewline] at hkind
      cases hkind

/-- No block opens or closes before the first token of a program. -/
theorem Delivers.pending_eq_nil {scanner after : Scanner} {name : String} {tokens : List Token}
    {last : Token} {contents : List Expr} (h : scanner.Delivers tokens after)
    (hends : after.Ends last) (hbreaks : scanner.PendingBreaks)
    (hblank : ∀ token ∈ scanner.pending, token.value = "")
    (hprogram : Program name tokens contents []) : scanner.pending = [] := by
  cases hpending : scanner.pending with
  | nil => rfl
  | cons waiting pending =>
    cases tokens with
    | nil =>
      cases h
      exact absurd (hpending.symm.trans (hends.spaces hbreaks).1) (List.cons_ne_nil _ _)
    | cons token tokens =>
      obtain ⟨middle, hstep, hend, -⟩ := h.exists_step
      cases hstep with
      | stop hnil | lineBreak hnil | cut hnil => exact absurd (hpending.symm.trans hnil) nofun
      | release hwaiting =>
        have hmem : token ∈ scanner.pending := hwaiting ▸ List.mem_cons_self
        have hbreak := hbreaks token hmem
        refine absurd hbreak (hprogram.not_isBreak fun hnewline => ?_)
        rcases hbreak with ⟨-, hvalue⟩ | ⟨hkind | hkind, -⟩
        · exact absurd ((hblank token hmem).symm.trans hvalue) (by decide)
        · simp [Token.isNewline, hkind] at hnewline
        · simp [Token.isNewline, hkind] at hnewline

/-- A program that does not begin with a space is delivered from the first character of its first
line that is not blank, which has no indentation. -/
theorem Delivers.exists_start {source name : String} {file : Option String} {tokens : List Token}
    {last : Token} {after : Scanner} {contents : List Expr}
    (h : (ofText source file).Delivers tokens after) (hends : after.Ends last)
    (hprogram : Program name tokens contents []) (hhead : source.toList.head? ≠ some ' ') :
    (LineStart.seek 1 0 source.toList).level = 0 ∧ ∃ (scanner : Scanner) (rest : List Token),
      scanner.At [0] (LineStart.seek 1 0 source.toList).rest ∧ scanner.Placed source ∧
        scanner.Delivers rest after ∧ Program name rest contents [] := by
  have hplaced := placed_ofText source file
  have hbreaks := pendingBreaks_ofText source file
  by_cases hbreak : source.toList.head? = some '\n'
  · obtain ⟨text, htext⟩ := List.head?_eq_some_iff.1 hbreak
    have hskip : (ofText source file).skipSpaces.rest = '\n' :: text := by
      show source.toList.dropWhile (· == ' ') = _
      rw [htext]
      rfl
    rw [htext, LineStart.seek, LineStart.seek_add]
    cases tokens with
    | nil =>
      cases h
      exact absurd (hskip.symm.trans (hends.spaces hbreaks).2) (List.cons_ne_nil _ _)
    | cons token tokens =>
      obtain ⟨middle, hstep, hend, hrest⟩ := h.exists_step
      obtain ⟨hresult, hmiddle⟩ := hstep.next_eq
      have hplaced' := hmiddle ▸ ((goes_next _).placed hplaced hresult hend).1
      have hbreaks' := hmiddle ▸ (regular_next hbreaks).2
      clear hresult hmiddle
      cases hstep with
      | release hpending => cases hpending
      | stop => cases hend
      | cut _ hcut =>
        rw [hskip] at hcut
        cases hcut
      | @lineBreak _ kinds _ hrest' hkinds =>
        rw [hskip] at hrest'
        obtain rfl := (List.cons.inj hrest').2
        rw [← program_dropWhile_iff, List.dropWhile_cons_of_pos (by rfl),
          program_dropWhile_iff] at hprogram
        -- No program begins with the indent token that a block opened here would send.
        have hnil := hrest.pending_eq_nil hends hbreaks' (by simp [mark]) hprogram
        obtain rfl : kinds = [] := List.map_eq_nil_iff.1 hnil
        have hlevel : (LineStart.seek 1 0 text).level = 0 :=
          (Layout.width_of_breaks? hkinds hplaced.bottom).symm
        refine ⟨hlevel, _, tokens, ⟨rfl, ?_, rfl⟩, hplaced', hrest, hprogram⟩
        show (Layout.enter _ (LineStart.seek 1 0 text).level).widths = [0]
        rw [hlevel]
        rfl
  · have hnext : ∀ c ∈ source.toList.head?, c ≠ ' ' ∧ c ≠ '\n' := by
      intro c hc
      exact ⟨fun heq => hhead (heq ▸ hc), fun heq => hbreak (heq ▸ hc)⟩
    have hseek := seek_replicate 1 0 0 hnext
    rw [List.replicate_zero, List.nil_append] at hseek
    rw [hseek]
    refine ⟨?_, ofText source file, tokens, ⟨rfl, rfl, rfl⟩, hplaced, h, hprogram⟩
    rw [LineStart.level, ite_self]

variable {scanner scanner' after : Scanner} {tokens : List Token} {last : Token} {lines : Nat}

/-- The text is read in the same way further down in another text. -/
theorem Delivers.down {widths : List Nat} {text : List Char} (name : String)
    (h : scanner.Delivers tokens after) (hends : after.Ends last) (hat : scanner.At widths text)
    (hat' : scanner'.At widths text) (hline : scanner'.line = scanner.line + lines) :
    ∃ tokens' after' last', scanner'.Delivers tokens' after' ∧ after'.Ends last' ∧
      Shifted (.elsewhere name name (Origin.down lines) id []) () tokens tokens' := by
  have hbreaks : scanner.PendingBreaks := by simp [PendingBreaks, hat.pending]
  have hbefore : Before [] scanner scanner' := by
    refine ⟨by rw [hat.rest, hat'.rest, List.append_nil], ?_, by rw [hat.pending, hat'.pending]; exact .nil⟩
    exact congrArg Layout.mk (hat'.widths.trans hat.widths.symm)
  have hplace {line line' : Nat} :
      (Shift.elsewhere name name (Origin.down lines) id []).Lines line line' ↔
        line' = line + lines :=
    ⟨fun h => (congrArg Origin.line h).symm, fun h => h ▸ rfl⟩
  obtain ⟨tokens', after', hdelivers, hafter, hshifted⟩ :=
    h.shifted name name (Origin.down lines) id (by simp [Text.Separated]) hbefore hbreaks (.inl rfl)
      (fun line line' breaks h => hplace.2 (by rw [hplace.1 h, Nat.add_right_comm]))
      (hplace.2 hline)
  obtain ⟨hpending, hspaces⟩ := hends.spaces (h.pendingBreaks hbreaks)
  have hrest := hafter.rest
  rw [List.append_nil] at hrest
  have hat'' : after'.At after'.layout.widths after.rest := ⟨hrest, rfl, hafter.pending_nil hpending⟩
  exact ⟨tokens', after', _, hdelivers, hat''.ends hspaces, hshifted⟩

/-- Where the same text is ahead, it is as many lines further down as there are before it. -/
theorem Placed.line_eq {before source source' : String} (h : scanner.Placed source)
    (h' : scanner'.Placed source') (hsource : source'.toList = before.toList ++ '\n' :: source.toList)
    (hrest : scanner'.rest = scanner.rest) :
    scanner'.line = scanner.line + (before.toList.count '\n' + 1) := by
  obtain ⟨text, htext, hline⟩ := h.text
  obtain ⟨text', htext', hline'⟩ := h'.text
  rw [hsource, htext, hrest, ← List.cons_append, ← List.append_assoc] at htext'
  rw [hline, hline', ← List.append_cancel_right htext', List.count_append, List.count_cons_self]
  omega

end Scanner

namespace Phrase

variable {name : String} {tokens tokens' more : List Token} {contents others : List Expr}

/-- A program stands further down in another text. -/
theorem Program.down {lines : Nat} (h : Program name tokens contents [])
    (hshifted : Shifted (.elsewhere name name (Origin.down lines) id []) () tokens tokens') :
    Program name tokens' (contents.map (Expr.relocate (Origin.down lines))) [] := by
  have h : Program (Shift.elsewhere name name (Origin.down lines) id []).file tokens contents [] := h
  obtain ⟨contents', last, hsame, hends, hprogram⟩ := h.shifted hshifted (closes_elsewhere rfl)
  obtain rfl : last = [] := hends
  have hwhole := hprogram [] [] (.stop ⟨rfl, rfl⟩)
  rw [Expr.relocateAll_eq_map] at hsame
  rw [List.append_nil, ← Expr.relocateAll_id contents'] at hwhole
  exact hsame ▸ hwhole

/-- A program goes on with another one after the line that closes the blocks of the first. -/
theorem Program.closing (h : Program name tokens contents [])
    (hshifted : Shifted (.closing name more) 0 tokens tokens') (hproper : Proper more)
    (hnewline : Ahead (¬ ·.isNewline = true) more) (hothers : Program name more others []) :
    Program name tokens' (contents ++ others) [] := by
  have h : Program (Shift.closing name more).file tokens contents [] := h
  obtain ⟨contents', last, hsame, hends, hprogram⟩ := h.shifted hshifted
    (closes_closing (quiet_of_program hothers hproper hnewline) hnewline)
  obtain rfl : contents = contents' := by
    have hsame : Expr.relocateAll id contents = Expr.relocateAll id contents' := hsame
    rwa [Expr.relocateAll_id, Expr.relocateAll_id] at hsame
  obtain ⟨newlines, outdents, rfl, hnewlines, -, hlength⟩ := hends
  obtain rfl := List.length_eq_zero_iff.1 hlength
  refine hprogram others [] (program_dropWhile_iff.1 ?_)
  rw [List.nil_append, dropWhile_newlines hnewlines hnewline]
  exact hothers

end Phrase

/-! ## Both texts -/

variable {s₁ s₂ : String} {file : Option String} {a b : Block Expr}

theorem parse_empty (file : Option String) : (parse "" file).result = .ok {} :=
  parse_eq_ok_iff.2 ⟨[], _, tokenize_eq_ok_iff.2 ⟨_, .refl, rfl, rfl⟩, rfl, .stop ⟨rfl, rfl⟩⟩

theorem parse_append_newline (h₁ : (parse s₁ file).result = .ok a)
    (h₂ : (parse s₂ file).result = .ok b) (hhead : s₂.toList.head? ≠ some ' ') :
    (parse (s₁ ++ "\n" ++ s₂) file).result = .ok
      { contents := a.contents ++
          b.contents.map (Expr.relocate (Origin.down (s₁.toList.count '\n' + 1))) } := by
  obtain ⟨tokens₁, last₁, htokens₁, -, hprogram₁⟩ := parse_eq_ok_iff.1 h₁
  obtain ⟨tokens₂, last₂, htokens₂, -, hprogram₂⟩ := parse_eq_ok_iff.1 h₂
  obtain ⟨after₁, hdelivers₁, hends₁⟩ := tokenize_eq_ok_iff.1 htokens₁
  obtain ⟨after₂, hdelivers₂, hends₂⟩ := tokenize_eq_ok_iff.1 htokens₂
  obtain ⟨hlevel, start, rest, hat, hplaced, hrest, hprogram⟩ :=
    hdelivers₂.exists_start hends₂ hprogram₂ hhead
  have hsource : (s₁ ++ "\n" ++ s₂).toList = s₁.toList ++ '\n' :: s₂.toList := by simp
  have hbefore : Scanner.Before ('\n' :: s₂.toList) (.ofText s₁ file)
      (.ofText (s₁ ++ "\n" ++ s₂) file) := ⟨hsource, rfl, .nil⟩
  obtain ⟨early, middle, hearly, hat', hclosing⟩ := hdelivers₁.closing _ hends₁ hbefore rfl
    (Scanner.placed_ofText s₁ file) (List.pairwise_singleton _ _) rfl hlevel
  have hplaced' := (hearly.laid (Scanner.placed_ofText (s₁ ++ "\n" ++ s₂) file)).1
  have hline := hplaced.line_eq hplaced' hsource (hat'.rest.trans hat.rest.symm)
  obtain ⟨late, after, last, hlate, hends, hshifted⟩ := hrest.down _ hends₂ hat hat' hline
  have hbreaks := hearly.pendingBreaks (Scanner.pendingBreaks_ofText _ file)
  refine parse_eq_ok_iff.2 ⟨early ++ late, last,
    tokenize_eq_ok_iff.2 ⟨after, hearly.trans hlate, hends⟩, rfl, ?_⟩
  refine hprogram₁.closing (hclosing late) (hlate.proper hbreaks) (hat'.ahead ?_ hlate)
    (hprogram.down hshifted)
  exact fun c hc => LineStart.head_rest_seek (List.head?_eq_some_iff.1 hc).choose_spec

/-- Two texts on lines of their own have the statements of both, those of the second as many lines
further down as there are before them. A line break at the end of a text makes no difference. -/
theorem parse_append (h : (parse s₁ file).result = .ok a) :
    (∀ s₂ b, s₂.toList.head? ≠ some ' ' → (parse s₂ file).result = .ok b →
      (parse (s₁ ++ "\n" ++ s₂) file).result = .ok
        { contents := a.contents ++
            b.contents.map (Expr.relocate (Origin.down (s₁.toList.count '\n' + 1))) }) ∧
      (parse (s₁ ++ "\n") file).result = .ok a := by
  refine ⟨fun s₂ b hhead h₂ => parse_append_newline h h₂ hhead, ?_⟩
  have horigin := (parse_eq_ok_iff.1 h).choose_spec.choose_spec.2.1
  have hempty := parse_append_newline h (parse_empty file) (by decide)
  rw [String.append_empty, List.map_nil, List.append_nil] at hempty
  rw [hempty]
  obtain ⟨origin, contents⟩ := a
  cases horigin
  rfl

theorem parse_append_nested :
    let s₁ := "module M\n  fn f\n    if a\n      b"
    let s₂ := "c\n\nuse N"
    ∃ a b, (parse s₁ none).result = .ok a ∧ (parse s₂ none).result = .ok b ∧
      (parse (s₁ ++ "\n" ++ s₂) none).result = .ok
        { contents := a.contents ++ b.contents.map (Expr.relocate (Origin.down 4)) } ∧
      (parse (s₁ ++ "\n") none).result = .ok a := by
  intro s₁ s₂
  obtain ⟨a, ha⟩ := exists_of_isOk (by decide +kernel : (parse s₁ none).result.isOk = true)
  obtain ⟨b, hb⟩ := exists_of_isOk (by decide +kernel : (parse s₂ none).result.isOk = true)
  have hlines : s₁.toList.count '\n' + 1 = 4 := by decide +kernel
  obtain ⟨hboth, hbreak⟩ := parse_append ha
  exact ⟨a, b, ha, hb, hlines ▸ hboth s₂ b (by decide) hb, hbreak⟩

end Offside
