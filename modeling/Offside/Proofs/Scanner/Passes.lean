import Offside.Proofs.Scanner.Closing

/-!
# Passages over a text

Tokens that wait are delivered before anything else, so a scanner on which none wait does one of two
things: it cuts a token off its line, or it breaks the line and delivers all the tokens of the
break. `Scanner.Passes` is a row of such steps. A fact about the tokens of a text is then an
induction with one case for each, and `Layout.Breaks` lists what a break can do.
-/

namespace Offside

/-! ## Line breaks -/

theorem Layout.isSynthetic_of_breaks? {layout : Layout} {level : Nat} {kinds : List Token.Kind}
    (h : layout.breaks? level = some kinds) : ∀ kind ∈ kinds, kind.isSynthetic = true := by
  intro kind hkind
  obtain rfl | rfl := isShift_of_breaks? h kind hkind <;> rfl

/-- Only white space is passed on the way to a line. -/
theorem LineStart.blank_of_append {breaks width : Nat} {text consumed : List Char}
    (h : text = consumed ++ (seek breaks width text).rest) :
    ∀ c ∈ consumed, c = ' ' ∨ c = '\n' := by
  fun_induction seek breaks width text generalizing consumed with
  | case1 breaks width rest ih =>
    cases consumed with
    | nil => simp
    | cons c consumed =>
      obtain ⟨rfl, hrest⟩ := List.cons.inj h
      exact List.forall_mem_cons.2 ⟨.inl rfl, ih hrest⟩
  | case2 breaks width rest ih =>
    cases consumed with
    | nil => simp
    | cons c consumed =>
      obtain ⟨rfl, hrest⟩ := List.cons.inj h
      exact List.forall_mem_cons.2 ⟨.inr rfl, ih hrest⟩
  | case3 breaks width rest =>
    have hnil : consumed = [] := by simpa using h
    simp [hnil]

namespace Scanner

variable {scanner after : Scanner} {tokens : List Token}

/-! ## Passages -/

/-- The scanner behind a token of its line, where `rest` is the text after the token. -/
def afterCut (scanner : Scanner) (value : String) (rest : List Char) : Scanner :=
  { scanner.skipSpaces with
    rest, column := scanner.skipSpaces.column + value.length, pending := [] }

/-- The scanner behind a line break and all its tokens, where `rest` is the text after the break. -/
def afterBreak (scanner : Scanner) (rest : List Char) : Scanner :=
  { scanner.skipSpaces.enterLine (LineStart.seek 1 0 rest) with pending := [] }

/-- The tokens of a line break with shifts of the given classes. -/
def breakTokens (scanner : Scanner) (kinds : List Token.Kind) : List Token :=
  scanner.mark .newline "\n" :: kinds.map (scanner.mark · "")

/-- From one scanner to another, no tokens waiting on either, over the tokens that are delivered on
the way. -/
inductive Passes : Scanner → List Token → Scanner → Prop
  | refl {scanner : Scanner} : Passes scanner [] scanner
  | cut {scanner after : Scanner} {kind : Token.Kind} {value : String} {rest : List Char}
    {tokens : List Token} (hcut : Token.cut? scanner.skipSpaces.rest = some (kind, value, rest))
    (h : Passes (scanner.afterCut value rest) tokens after) :
    Passes scanner
      ({ kind, value, line := scanner.line, column := scanner.skipSpaces.column } :: tokens) after
  | lineBreak {scanner after : Scanner} {rest : List Char} {kinds : List Token.Kind}
    {tokens : List Token} (hrest : scanner.skipSpaces.rest = '\n' :: rest)
    (hkinds : scanner.layout.breaks? (LineStart.seek 1 0 rest).level = some kinds)
    (h : Passes (scanner.afterBreak rest) tokens after) :
    Passes scanner ((scanner.afterBreak rest).breakTokens kinds ++ tokens) after

theorem with_pending_nil (h : scanner.pending = []) : { scanner with pending := [] } = scanner := by
  rw [← h]

/-- Between the tokens that wait and a scanner on which none wait there is a passage. -/
theorem Delivers.passes (h : Delivers scanner tokens after) (hafter : after.pending = []) :
    ∃ others, tokens = scanner.pending ++ others ∧
      Passes { scanner with pending := [] } others after := by
  induction h with
  | @refl scanner =>
    refine ⟨[], by rw [hafter, List.append_nil], ?_⟩
    rw [with_pending_nil hafter]
    exact .refl
  | @step scanner after token tokens hresult hend _ ih =>
    obtain ⟨others, rfl, hothers⟩ := ih hafter
    have hstep := step_next hresult
    generalize scanner.next.2 = middle at hstep hothers
    cases hstep with
    | release hpending => exact ⟨others, by rw [hpending, List.cons_append], hothers⟩
    | stop => cases hend
    | lineBreak hpending hrest hkinds =>
      rw [hpending, with_pending_nil hpending]
      exact ⟨_, rfl, .lineBreak hrest hkinds hothers⟩
    | cut hpending hcut =>
      rw [hpending, with_pending_nil hpending]
      exact ⟨_, rfl, .cut hcut hothers⟩

/-- The tokens of a text lead over the whole of it. -/
theorem Delivers.passes_of_ends {source : String} {file : Option String} {last : Token}
    (h : Delivers (ofText source file) tokens after) (hends : after.Ends last) :
    Passes (ofText source file) tokens after ∧ after.pending = [] ∧ after.skipSpaces.rest = [] ∧
      last = after.skipSpaces.endToken := by
  obtain ⟨hnone, hspaces⟩ := hends.spaces (h.pendingBreaks (pendingBreaks_ofText source file))
  obtain ⟨others, rfl, hpasses⟩ := h.passes hnone
  have hat : after.At after.layout.widths after.rest := ⟨rfl, rfl, hnone⟩
  have hlast := (hat.ends hspaces).result_eq
  rw [hends.result_eq] at hlast
  exact ⟨hpasses, hnone, hspaces, Except.ok.inj hlast⟩

theorem exists_append_of_tokenize {source : String} {file : Option String} {stream : List Token}
    (h : (tokenize source file).result = .ok stream) :
    ∃ tokens last, stream = tokens ++ [last] := by
  obtain ⟨hall, rfl⟩ := mapM_result_eq_ok_iff.1 h
  rw [List.forall_mem_append, List.forall_mem_singleton] at hall
  obtain ⟨hahead, last, hlast⟩ := hall
  refine ⟨Delivery.tokens (Token.Stream.ofText source file).ahead, last, ?_⟩
  rw [Delivery.tokens_append hahead, Delivery.tokens, hlast]
  rfl

/-- A text that has tokens is passed to its end. -/
theorem exists_passes_of_tokenize {source : String} {file : Option String} {stream : List Token}
    (h : (tokenize source file).result = .ok stream) :
    ∃ tokens after, Passes (ofText source file) tokens after ∧ after.skipSpaces.rest = [] ∧
      stream = tokens ++ [after.skipSpaces.endToken] := by
  obtain ⟨tokens, last, rfl⟩ := exists_append_of_tokenize h
  obtain ⟨after, hdelivers, hends⟩ := tokenize_eq_ok_iff.1 h
  obtain ⟨hpasses, -, hend, rfl⟩ := hdelivers.passes_of_ends hends
  exact ⟨tokens, after, hpasses, hend, rfl⟩

/-! ## The text ahead -/

/-- The spaces ahead. -/
def spaces (scanner : Scanner) : List Char :=
  scanner.rest.takeWhile (· == ' ')

theorem spaces_append (scanner : Scanner) :
    scanner.spaces ++ scanner.skipSpaces.rest = scanner.rest :=
  List.takeWhile_append_dropWhile

theorem eq_space_of_mem_spaces {c : Char} (h : c ∈ scanner.spaces) : c = ' ' :=
  beq_iff_eq.1 (List.all_eq_true.1 (List.all_takeWhile ..) c h)

theorem newline_not_mem_spaces (scanner : Scanner) : '\n' ∉ scanner.spaces :=
  fun hmem => absurd (eq_space_of_mem_spaces hmem) (by decide)

/-- A line break passes white space, up to the text of the next line, and with it the indentation of
that line. -/
theorem exists_passed_afterBreak {rest : List Char}
    (hrest : scanner.skipSpaces.rest = '\n' :: rest) :
    ∃ passed earlier, scanner.rest = passed ++ (scanner.afterBreak rest).rest ∧
      (∀ c ∈ passed, c = ' ' ∨ c = '\n') ∧
        (scanner.afterBreak rest).line = scanner.line + passed.count '\n' ∧
          passed = earlier ++ '\n' :: List.replicate (scanner.afterBreak rest).column ' ' := by
  obtain ⟨consumed, earlier, hconsumed, hbreaks, hlast⟩ := LineStart.exists_consumed 1 0 rest
  rw [List.replicate_zero, List.nil_append] at hlast
  refine ⟨scanner.spaces ++ '\n' :: consumed, scanner.spaces ++ earlier, ?_, fun c hc => ?_, ?_, ?_⟩
  · rw [← spaces_append, hrest, List.append_assoc]
    exact congrArg (fun text => scanner.spaces ++ '\n' :: text) hconsumed
  · rcases List.mem_append.1 hc with hspace | hbreak
    · exact .inl (eq_space_of_mem_spaces hspace)
    · rcases List.mem_cons.1 hbreak with rfl | hmem
      · exact .inr rfl
      · exact LineStart.blank_of_append hconsumed c hmem
  · show scanner.line + (LineStart.seek 1 0 rest).breaks = _
    rw [hbreaks, List.count_append, List.count_cons_self,
      List.count_eq_zero.2 scanner.newline_not_mem_spaces]
    omega
  · rw [List.append_assoc]
    exact congrArg (scanner.spaces ++ ·) hlast

/-- Behind a line break there is a line with text, or the text is used up. -/
theorem head_rest_afterBreak {rest others : List Char} {c : Char}
    (h : (scanner.afterBreak rest).rest = c :: others) : c ≠ ' ' ∧ c ≠ '\n' :=
  LineStart.head_rest_seek h

/-- Where the text is used up there are no more tokens. -/
theorem Passes.eq_nil (h : Passes scanner tokens after) (hrest : scanner.rest = []) :
    tokens = [] := by
  have hskip : scanner.skipSpaces.rest = [] := by simp [skipSpaces, hrest]
  cases h with
  | refl => rfl
  | cut hcut =>
    rw [hskip] at hcut
    cases hcut
  | lineBreak hrest' =>
    rw [hskip] at hrest'
    cases hrest'

/-- A passage that begins at a word begins with a token of text. -/
theorem Passes.exists_plain {c : Char} {others : List Char} (h : Passes scanner tokens after)
    (hend : after.skipSpaces.rest = []) (hrest : scanner.rest = c :: others)
    (hc : c ≠ ' ' ∧ c ≠ '\n') :
    ∃ token later, tokens = token :: later ∧ token.kind.isSynthetic = false := by
  have hskip : scanner.skipSpaces.rest = c :: others := by
    simp [skipSpaces, hrest, hc.1]
  cases h with
  | refl =>
    rw [hskip] at hend
    cases hend
  | cut hcut => exact ⟨_, _, rfl, Token.Kind.isSynthetic_of_cut? hcut⟩
  | lineBreak hnewline =>
    rw [hskip] at hnewline
    exact absurd (List.cons.inj hnewline).1 hc.2

/-- Behind a line break there are tokens of text, unless the text is used up. -/
theorem Passes.afterBreak {rest : List Char} (h : Passes (scanner.afterBreak rest) tokens after)
    (hend : after.skipSpaces.rest = []) :
    (scanner.afterBreak rest).rest = [] ∧ tokens = [] ∨
      ∃ token later, tokens = token :: later ∧ token.kind.isSynthetic = false := by
  cases hahead : (scanner.afterBreak rest).rest with
  | nil => exact .inl ⟨rfl, h.eq_nil hahead⟩
  | cons c others => exact .inr (h.exists_plain hend hahead (head_rest_afterBreak hahead))

/-- A line break that reaches the end of the text closes all blocks. -/
theorem breaks?_of_rest_nil {rest : List Char} {kinds : List Token.Kind}
    (hkinds : scanner.layout.breaks? (LineStart.seek 1 0 rest).level = some kinds)
    (hrest : (scanner.afterBreak rest).rest = []) (hbottom : 0 ∈ scanner.layout.widths)
    (hdescends : scanner.layout.Descends) :
    kinds = List.replicate scanner.layout.depth .outdent ∧
      (scanner.afterBreak rest).layout.widths = [0] := by
  have hlevel : (LineStart.seek 1 0 rest).level = 0 := by
    rw [LineStart.level, show (LineStart.seek 1 0 rest).rest = [] from hrest]
    rfl
  obtain ⟨hzero, hwidths⟩ := Layout.breaks?_zero hbottom hdescends
  rw [hlevel, hzero] at hkinds
  refine ⟨(Option.some.inj hkinds).symm, ?_⟩
  show (scanner.layout.enter (LineStart.seek 1 0 rest).level).widths = [0]
  rw [hlevel, hwidths]

end Scanner

end Offside
