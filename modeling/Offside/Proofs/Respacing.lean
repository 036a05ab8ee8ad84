import Offside.Proofs.Spellings
import Offside.Proofs.Scanner.Gaps

/-!
# White space that does not count

Blank lines, spaces at the end of a line, and the number of spaces between two tokens of a line do not
count. `Respacing` relates texts that differ by any number of such edits, and `parse_respaced` says
that their tokens are spelled alike, and that they are parsed alike.

An edit changes one gap between the words of a text (`Respaced.exists_pauses`), so that the new text is
read as the tokens of the old one. The parser sees no more of the tokens than how they are spelled.
-/

namespace Offside

open Scanner (Reads)
open Text (lineAfter columnAfter levelAfter Blank EndsLine Solid Separated SameGap)

namespace Scanner

variable {source : String} {before front behind gap gap' text : List Char}
  {scanner middle after : Scanner} {tokens early late : List Token} {token : Token}

/-! ## Gaps of a passage -/

/-- A passage comes to a gap behind the characters `start`, with the characters `text` behind it. What
comes before the gap, if anything, is a word. -/
inductive Pauses (scanner after : Scanner) (tokens : List Token) (start gap text : List Char) : Prop
  | intro {middle : Scanner} {early late : List Token} (htokens : tokens = early ++ late)
    (hearly : Passes scanner early middle) (hlate : Passes middle late after)
    (hplain : ∀ token ∈ early.getLast?, token.kind.isSynthetic = false)
    (hrest : scanner.rest = start ++ middle.rest) (hmiddle : middle.rest = gap ++ text)
    (hsolid : Solid text)

/-- The tokens are read again with another gap. -/
theorem Pauses.reads {start : List Char} (h : Pauses scanner after tokens start gap text)
    (hend : after.skipSpaces.rest = []) (hgap : SameGap gap gap' text) :
    ∃ behind, behind.dropWhile (· == ' ') = [] ∧
      Reads scanner.layout.widths (start ++ (gap' ++ text))
        (tokens.map fun token => .bare token.kind token.value) after.layout.widths behind := by
  obtain ⟨rfl, hearly, hlate, hplain, hrest, hmiddle, hsolid⟩ := h
  obtain ⟨behind, hbehind, hreads⟩ := hlate.reads_gap hend hmiddle hsolid hgap
  have hexchanges := Exchanges.separated (hmiddle ▸ hgap.separated) hgap.separated' hplain
  refine ⟨behind, hbehind, ?_⟩
  rw [List.map_append]
  exact (hearly.reads_exchanged hrest hexchanges).trans hreads

/-- A passage comes to the text behind each of its words. -/
theorem Passes.exists_cut (h : Passes scanner tokens after) (hlocated : scanner.Located source before)
    (hmem : token ∈ tokens) (hplain : token.kind.isSynthetic = false) :
    ∃ early late middle before, tokens = early ++ token :: late ∧
      Passes scanner (early ++ [token]) middle ∧ Passes middle late after ∧
        middle.Located source (before ++ token.value.toList) ∧ token.line = lineAfter before ∧
          token.column = columnAfter before ∧ ∀ text, Solid (token.value.toList ++ text) := by
  induction h generalizing before with
  | refl => cases hmem
  | @cut scanner after kind value rest tokens hcut hpasses ih =>
    rcases List.mem_cons.1 hmem with rfl | hmem
    · obtain ⟨c, others, hvalue, hc⟩ := Token.exists_head_of_cut? hcut
      have hstands := hlocated.standsAfter hcut
      refine ⟨[], tokens, _, _, rfl, .cut hcut .refl, hpasses, hlocated.afterCut hcut, hstands.line,
        hstands.column, fun text first hfirst => ?_⟩
      simp only [hvalue, List.cons_append, List.head?_cons, Option.mem_def, Option.some.injEq] at hfirst
      exact hfirst ▸ hc
    · obtain ⟨early, late, middle, before, rfl, hearly, hlate, htoken⟩ :=
        ih (hlocated.afterCut hcut) hmem
      exact ⟨_ :: early, late, middle, before, rfl, .cut hcut hearly, hlate, htoken⟩
  | @lineBreak scanner after rest kinds tokens hrest hkinds hpasses ih =>
    rcases List.mem_append.1 hmem with hbreak | hmem
    · have hsynthetic : token.kind.isSynthetic = true := by
        rcases List.mem_cons.1 hbreak with rfl | hshift
        · rfl
        · obtain ⟨kind, hkind, rfl⟩ := List.mem_map.1 hshift
          exact Layout.isSynthetic_of_breaks? hkinds kind hkind
      rw [hplain] at hsynthetic
      cases hsynthetic
    · obtain ⟨blank, -, hnext⟩ := hlocated.afterBreak hrest
      obtain ⟨early, late, middle, before, rfl, hearly, hlate, htoken⟩ := ih hnext hmem
      refine ⟨_ ++ early, late, middle, before, (List.append_assoc _ _ _).symm, ?_, hlate, htoken⟩
      rw [List.append_assoc]
      exact .lineBreak hrest hkinds hearly

/-- A token on the line may come before. -/
theorem Pauses.cut {start rest : List Char} {kind : Token.Kind} {value : String}
    (hcut : Token.cut? scanner.skipSpaces.rest = some (kind, value, rest))
    (h : Pauses (scanner.afterCut value rest) after tokens start gap text) :
    Pauses scanner after (⟨kind, value, scanner.line, scanner.skipSpaces.column⟩ :: tokens)
      (scanner.spaces ++ value.toList ++ start) gap text := by
  obtain @⟨middle, early, late, rfl, hearly, hlate, hplain, hstart, hmiddle, hsolid⟩ := h
  refine .intro rfl (.cut hcut hearly) hlate (fun token htoken => ?_) ?_ hmiddle hsolid
  · cases early with
    | nil =>
      cases htoken
      exact Token.Kind.isSynthetic_of_cut? hcut
    | cons first early =>
      rw [List.getLast?_cons_cons] at htoken
      exact hplain token htoken
  · rw [← spaces_append scanner, Token.eq_append_of_cut? hcut, List.append_assoc, List.append_assoc,
      ← hstart]
    rfl

/-- A line break may come before, where there is a word between it and the gap. -/
theorem Pauses.lineBreak {passed start rest : List Char} {kinds : List Token.Kind}
    (hnewline : scanner.skipSpaces.rest = '\n' :: rest)
    (hkinds : scanner.layout.breaks? (LineStart.seek 1 0 rest).level = some kinds)
    (hpassed : scanner.rest = passed ++ (scanner.afterBreak rest).rest) (hne : start ≠ [])
    (h : Pauses (scanner.afterBreak rest) after tokens start gap text) :
    Pauses scanner after ((scanner.afterBreak rest).breakTokens kinds ++ tokens) (passed ++ start) gap
      text := by
  obtain @⟨middle, early, late, rfl, hearly, hlate, hplain, hstart, hmiddle, hsolid⟩ := h
  have hearlyNe : early ≠ [] := by
    rintro rfl
    cases hearly
    exact hne (List.self_eq_append_left.1 hstart)
  refine .intro (List.append_assoc _ _ _).symm (.lineBreak hnewline hkinds hearly) hlate ?_
    (by rw [hpassed, hstart, List.append_assoc]) hmiddle hsolid
  rw [List.getLast?_append, List.getLast?_eq_some_getLast hearlyNe, Option.some_or,
    ← List.getLast?_eq_some_getLast hearlyNe]
  exact hplain

/-- Where a line of the text ends there is a gap, and a passage comes to it. -/
theorem Passes.exists_gap (h : Passes scanner tokens after) (hend : after.skipSpaces.rest = [])
    (hrest : scanner.rest = front ++ behind) (hbehind : EndsLine behind) :
    ∃ start gap gap' text, front = start ++ gap ∧ behind = gap' ++ text ∧ Blank (gap ++ gap') ∧
      Pauses scanner after tokens start (gap ++ gap') text := by
  induction h generalizing front with
  | @refl scanner =>
    have hspaces : Blank scanner.rest := by
      rw [← spaces_append, hend, List.append_nil]
      exact fun _ hc => .inl (eq_space_of_mem_spaces hc)
    refine ⟨[], front, behind, [], rfl, (List.append_nil _).symm, hrest ▸ hspaces,
      .intro rfl .refl .refl (by simp) rfl (by rw [hrest, List.append_nil]) (by simp [Solid])⟩
  | @cut scanner after kind value rest tokens hcut hpasses ih =>
    have hline : '\n' ∉ scanner.spaces ++ value.toList := by
      simp [newline_not_mem_spaces, Token.newline_not_mem_of_cut? hcut]
    have htext : scanner.spaces ++ value.toList ++ rest = front ++ behind := by
      rw [← hrest, List.append_assoc, ← Token.eq_append_of_cut? hcut, spaces_append]
    obtain ⟨front', rfl, hrest'⟩ := hbehind.exists_append hline htext
    obtain ⟨start, gap, gap', text, rfl, hgap', hblank, hpauses⟩ := ih hend hrest'
    exact ⟨_, gap, gap', text, (List.append_assoc _ _ _).symm, hgap', hblank, hpauses.cut hcut⟩
  | @lineBreak scanner after rest kinds tokens hnewline hkinds hpasses ih =>
    obtain ⟨passed, hpassed, hblank, -, hsolid, -⟩ := exists_gap_afterBreak hnewline
    have hhere {more : List Char} (hfront : passed = front ++ more)
        (hmore : behind = more ++ (scanner.afterBreak rest).rest) : ∃ start gap gap' text,
          front = start ++ gap ∧ behind = gap' ++ text ∧ Blank (gap ++ gap') ∧ Pauses scanner after
            ((scanner.afterBreak rest).breakTokens kinds ++ tokens) start (gap ++ gap') text :=
      ⟨[], front, more, _, rfl, hmore, hfront ▸ hblank,
        .intro (List.nil_append _).symm .refl (.lineBreak hnewline hkinds hpasses) (by simp) rfl
          (hfront ▸ hpassed) hsolid⟩
    rcases List.append_eq_append_iff.1 (hpassed.symm.trans hrest) with
      ⟨more, hfront, hmore⟩ | ⟨more, hfront, hmore⟩
    · cases more with
      | nil =>
        have hfront' : passed = front ++ [] := by rw [hfront, List.append_nil, List.append_nil]
        exact hhere hfront' hmore.symm
      | cons c more =>
        obtain ⟨start, gap, gap', text, hsplit, hgap', hblank', hpauses⟩ := ih hend hmore
        -- The line begins with a word, so that this is not the gap behind the line break.
        have hne : start ≠ [] := by
          rintro rfl
          have hgap : gap = c :: more := hsplit.symm
          have hc := (Text.blank_append_iff.1 hblank').1 c (hgap ▸ List.mem_cons_self)
          exact absurd hc (not_or.2 (hsolid c (by rw [hmore]; rfl)))
        exact ⟨passed ++ start, gap, gap', text, by rw [hfront, hsplit, List.append_assoc], hgap',
          hblank', hpauses.lineBreak hnewline hkinds hpassed hne⟩
    · exact hhere hfront hmore

/-! ## Other gaps -/

/-- Spaces between two words. -/
theorem sameGap_spaces (count count' : Nat) (text : List Char) :
    SameGap (List.replicate (count + 1) ' ') (List.replicate (count' + 1) ' ') text := by
  have hbreak (count : Nat) : '\n' ∉ List.replicate count ' ' := by simp [List.mem_replicate]
  exact ⟨Text.blank_replicate _, Text.blank_replicate _, by simp [List.mem_replicate],
    fun h => absurd h (hbreak _), (Text.blank_replicate _).separated (by simp),
    (Text.blank_replicate _).separated (by simp)⟩

/-- White space at the end of a line changes the gap there. -/
theorem Passes.exists_gap_inserted {piece : List Char} (h : Passes scanner tokens after)
    (hend : after.skipSpaces.rest = []) (hrest : scanner.rest = front ++ behind)
    (hbehind : EndsLine behind) (hpiece : Blank piece) (hnone : behind = [] → '\n' ∉ piece) :
    ∃ start gap gap' text, front ++ (piece ++ behind) = start ++ (gap' ++ text) ∧
      SameGap gap gap' text ∧ Pauses scanner after tokens start gap text := by
  obtain ⟨start, gap, gap', text, rfl, rfl, hblank, hpauses⟩ := h.exists_gap hend hrest hbehind
  have hsolid : Solid text := by
    obtain ⟨-, -, -, -, -, -, hsolid⟩ := hpauses
    exact hsolid
  exact ⟨start, _, _, text, by simp only [List.append_assoc],
    hbehind.sameGap hblank hsolid hpiece hnone, hpauses⟩

/-- Between two words of a line there is a gap. -/
theorem Passes.pauses_between {file : Option String} {first second : Token} {rest : List Char}
    (h : Passes (ofText source file) tokens after)
    (hfirst : first ∈ tokens ∧ first.kind.isSynthetic = false)
    (hplace : first.line = lineAfter before ∧ first.column = columnAfter before)
    (hsecond : second ∈ tokens ∧ second.kind.isSynthetic = false)
    (hsource : source.toList = before ++ (first.value.toList ++ (gap ++
      (second.value.toList ++ rest)))) :
    Pauses (ofText source file) after tokens (before ++ first.value.toList) gap
      (second.value.toList ++ rest) := by
  have hlocated := located_ofText source file
  obtain ⟨early, late, middle, before', rfl, hearly, hlate, hmiddle, hline, hcolumn, -⟩ :=
    h.exists_cut hlocated hfirst.1 hfirst.2
  obtain ⟨-, -, -, -, -, -, -, -, -, -, hsolid⟩ := h.exists_cut hlocated hsecond.1 hsecond.2
  have htext := hmiddle.text
  rw [List.append_assoc, hsource] at htext
  obtain rfl := Text.eq_of_places htext (hplace.1.symm.trans hline) (hplace.2.symm.trans hcolumn)
  have hrest := List.append_cancel_left (List.append_cancel_left htext)
  refine .intro (List.append_cons _ _ _) hearly hlate (fun token htoken => ?_) hmiddle.text
    hrest.symm (hsolid rest)
  rw [List.getLast?_concat] at htoken
  cases htoken
  exact hfirst.2

end Scanner

/-! ## Edits -/

/-- An edit of white space that does not count. -/
inductive Respaced (source source' : String) : Prop
  /-- A line of spaces behind a line break. -/
  | blankLine {before after : List Char} (count : Nat) (h : source.toList = before ++ '\n' :: after)
    (h' : source'.toList = before ++ '\n' :: (List.replicate count ' ' ++ '\n' :: after))
  /-- Spaces at the end of a line. -/
  | lineEnd {before after : List Char} (count : Nat) (h : source.toList = before ++ '\n' :: after)
    (h' : source'.toList = before ++ (List.replicate count ' ' ++ '\n' :: after))
  /-- Spaces at the end of the text. -/
  | textEnd (count : Nat) (h' : source'.toList = source.toList ++ List.replicate count ' ')
  /-- Another number of spaces between two tokens of a line, neither of which is a line break. -/
  | between {tokens : List Token} {first second : Token} {before after : List Char}
    (count count' : Nat) (htokens : (tokenize source none).result = .ok tokens)
    (hfirst : first ∈ tokens ∧ first.kind.isSynthetic = false)
    (hplace : first.line = lineAfter before ∧ first.column = columnAfter before)
    (hsecond : second ∈ tokens ∧ second.kind.isSynthetic = false)
    (hplace' : second.line = first.line ∧
      second.column = first.column + first.value.length + (count + 1))
    (h : source.toList = before ++ (first.value.toList ++
      (List.replicate (count + 1) ' ' ++ (second.value.toList ++ after))))
    (h' : source'.toList = before ++ (first.value.toList ++
      (List.replicate (count' + 1) ' ' ++ (second.value.toList ++ after))))

/-- Any number of edits of white space that does not count. -/
inductive Respacing : String → String → Prop
  | refl {source : String} : Respacing source source
  | step {source source' source'' : String} (h : Respacing source source')
    (hedit : Respaced source' source'') : Respacing source source''

variable {source source' : String} {file : Option String} {stream : List Token}

open Scanner (Passes Pauses)

/-- One edit is a change of one gap. -/
theorem Respaced.exists_pauses {tokens : List Token} {last : Token} {after : Scanner}
    (hedit : Respaced source source')
    (h : (tokenize source none).result = .ok (tokens ++ [last]))
    (hpasses : Passes (Scanner.ofText source none) tokens after) (hend : after.skipSpaces.rest = []) :
    ∃ start gap gap' text, source'.toList = start ++ (gap' ++ text) ∧ SameGap gap gap' text ∧
      Pauses (Scanner.ofText source none) after tokens start gap text := by
  have hrest : (Scanner.ofText source none).rest = source.toList := rfl
  cases hedit with
  | @blankLine before behind count hsource hsource' =>
    have hpiece : Blank ('\n' :: List.replicate count ' ') :=
      List.forall_mem_cons.2 ⟨.inr rfl, Text.blank_replicate count⟩
    rw [hsource']
    exact hpasses.exists_gap_inserted hend (hrest.trans hsource) (.inr ⟨behind, rfl⟩) hpiece nofun
  | @lineEnd before behind count hsource hsource' =>
    rw [hsource']
    exact hpasses.exists_gap_inserted hend (hrest.trans hsource) (.inr ⟨behind, rfl⟩)
      (Text.blank_replicate count) nofun
  | textEnd count hsource' =>
    have hpiece : '\n' ∉ List.replicate count ' ' := by simp [List.mem_replicate]
    rw [hsource', ← List.append_nil (List.replicate count ' ')]
    exact hpasses.exists_gap_inserted hend (List.append_nil _).symm (.inl rfl)
      (Text.blank_replicate count) fun _ => hpiece
  | @between stream first second before rest count count' htokens hfirst hplace hsecond _ hsource
      hsource' =>
    have hplain {token : Token} (htoken : token ∈ stream ∧ token.kind.isSynthetic = false) :
        token ∈ tokens ∧ token.kind.isSynthetic = false := by
      rw [h] at htokens
      cases htokens
      rcases List.mem_append.1 htoken.1 with hmem | hlast
      · exact ⟨hmem, htoken.2⟩
      · rw [List.mem_singleton.1 hlast, (inView_of_tokenize h).2.kind_eq] at htoken
        cases htoken.2
    exact ⟨before ++ first.value.toList, _, _, _, by rw [hsource', List.append_assoc],
      Scanner.sameGap_spaces count count' _,
      hpasses.pauses_between (hplain hfirst) hplace (hplain hsecond) hsource⟩

/-- The same tokens are read after an edit. -/
theorem Respaced.exists_tokenize (hedit : Respaced source source')
    (h : (tokenize source none).result = .ok stream) (file' : Option String) :
    ∃ stream', (tokenize source' file').result = .ok stream' ∧
      stream'.map Token.spelling = stream.map Token.spelling := by
  obtain ⟨tokens, after, hpasses, hend, rfl⟩ := Scanner.exists_passes_of_tokenize h
  obtain ⟨start, gap, gap', text, hsource', hgap, hpauses⟩ := hedit.exists_pauses h hpasses hend
  obtain ⟨behind, hbehind, hreads⟩ := hpauses.reads hend hgap
  rw [← hsource'] at hreads
  exact exists_spelled_of_reads h hreads hbehind file'

/-- The name of its file is no matter to a text. -/
theorem exists_tokenize_elsewhere (h : (tokenize source file).result = .ok stream)
    (file' : Option String) : ∃ stream', (tokenize source file').result = .ok stream' ∧
      stream'.map Token.spelling = stream.map Token.spelling := by
  obtain ⟨tokens, after, hpasses, hend, rfl⟩ := Scanner.exists_passes_of_tokenize h
  exact exists_spelled_of_reads h hpasses.reads_again hend file'

theorem Respacing.exists_tokenize (hedits : Respacing source source')
    (h : (tokenize source file).result = .ok stream) (file' : Option String) :
    ∃ stream', (tokenize source' file').result = .ok stream' ∧
      stream'.map Token.spelling = stream.map Token.spelling := by
  induction hedits generalizing file' with
  | refl => exact exists_tokenize_elsewhere h file'
  | step _ hedit ih =>
    obtain ⟨stream', h', hspelling⟩ := ih none
    obtain ⟨stream'', h'', hspelling'⟩ := hedit.exists_tokenize h' file'
    exact ⟨stream'', h'', hspelling'.trans hspelling⟩

/-- After edits of white space that does not count, the tokens of a text are spelled as before, and
the text is parsed as before. -/
theorem parse_respaced (hedits : Respacing source source')
    (h : (tokenize source file).result = .ok stream) (file' : Option String) :
    ∃ stream', (tokenize source' file').result = .ok stream' ∧
      stream'.map Token.spelling = stream.map Token.spelling ∧
        ParsedAlike (parse source file).result (parse source' file').result := by
  obtain ⟨stream', h', hspelling⟩ := hedits.exists_tokenize h file'
  exact ⟨stream', h', hspelling, parse_spelled h h' hspelling⟩

theorem parse_respaced_block :
    ∃ stream stream', (tokenize "if a\n  b +  c\nd" none).result = .ok stream ∧
      (tokenize "if a\n \n  b + c  \nd " none).result = .ok stream' ∧
        stream'.map Token.spelling = stream.map Token.spelling ∧
          ParsedAlike (parse "if a\n  b +  c\nd" none).result
            (parse "if a\n \n  b + c  \nd " none).result := by
  let first : Token := ⟨.operator, "+", 2, 4⟩
  let second : Token := ⟨.identifier, "c", 2, 7⟩
  have hmem : (tokenize "if a\n  b +  c\nd" none).result.toOption.map
      (fun stream => decide (first ∈ stream ∧ second ∈ stream)) = some true := by decide +kernel
  obtain ⟨stream, h⟩ := exists_of_isOk
    (by decide +kernel : (tokenize "if a\n  b +  c\nd" none).result.isOk = true)
  rw [h] at hmem
  obtain ⟨hfirst, hsecond⟩ := of_decide_eq_true (Option.some.inj hmem)
  have hbetween : Respaced "if a\n  b +  c\nd" "if a\n  b + c\nd" :=
    @Respaced.between _ _ stream first second "if a\n  b ".toList "\nd".toList 1 0 h
      ⟨hfirst, rfl⟩ (by decide) ⟨hsecond, rfl⟩ (by decide) (by decide) (by decide)
  have hblankLine : Respaced "if a\n  b + c\nd" "if a\n \n  b + c\nd" :=
    @Respaced.blankLine _ _ "if a".toList "  b + c\nd".toList 1 (by decide) (by decide)
  have hlineEnd : Respaced "if a\n \n  b + c\nd" "if a\n \n  b + c  \nd" :=
    @Respaced.lineEnd _ _ "if a\n \n  b + c".toList "d".toList 2 (by decide) (by decide)
  have htextEnd : Respaced "if a\n \n  b + c  \nd" "if a\n \n  b + c  \nd " :=
    .textEnd 1 (by decide)
  have hedits := (((Respacing.refl.step hbetween).step hblankLine).step hlineEnd).step htextEnd
  obtain ⟨stream', h', hspelling, hparsed⟩ := parse_respaced hedits h none
  exact ⟨stream, stream', h, h', hspelling, hparsed⟩

end Offside
