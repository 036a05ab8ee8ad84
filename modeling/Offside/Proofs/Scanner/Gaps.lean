import Offside.Proofs.Scanner.Reads
import Offside.Proofs.Segments

/-!
# White space between words

The white space between two words is a gap. A scanner reads a gap without a line break as nothing,
and one with line breaks by the column behind it alone (`Scanner.Reads.breaks`). So a passage over a text
is read again from another text that has the same words and other gaps. `Passes.reads_exchanged` reads
the words before a gap, whose last one needs to know that white space follows, and `Passes.reads_gap`
the gap and what follows it.
-/

namespace Offside

namespace Text

/-- Nothing but spaces and line feeds. -/
def Blank (text : List Char) : Prop :=
  ∀ c ∈ text, c = ' ' ∨ c = '\n'

/-- The text is empty, or begins with neither a space nor a line feed. -/
def Solid (text : List Char) : Prop :=
  ∀ c ∈ text.head?, c ≠ ' ' ∧ c ≠ '\n'

variable {text text' gap gap' : List Char}

theorem blank_append_iff : Blank (gap ++ gap') ↔ Blank gap ∧ Blank gap' :=
  List.forall_mem_append

theorem blank_replicate (count : Nat) : Blank (List.replicate count ' ') :=
  fun _ hc => .inl (List.eq_of_mem_replicate hc)

theorem Blank.separated (h : Blank gap) (hne : gap ≠ []) : Separated (gap ++ text) := by
  cases gap with
  | nil => exact absurd rfl hne
  | cons c gap =>
    intro first hfirst
    cases hfirst
    exact h c List.mem_cons_self

/-- Without a line feed there are only spaces. -/
theorem Blank.dropWhile (h : Blank gap) (hline : '\n' ∉ gap) : gap.dropWhile (· == ' ') = [] := by
  have hspaces : ∀ c ∈ gap, (c == ' ') = true := by
    intro c hc
    rcases h c hc with rfl | rfl
    · rfl
    · exact absurd hc hline
  have hdrop : (gap ++ []).dropWhile (· == ' ') = [].dropWhile (· == ' ') :=
    List.dropWhile_append_of_pos hspaces
  rwa [List.append_nil] at hdrop

/-- A text begins with white space in one way only. -/
theorem Blank.unique (h : Blank gap) (h' : Blank gap') (hsolid : Solid text) (hsolid' : Solid text')
    (heq : gap ++ text = gap' ++ text') : gap = gap' ∧ text = text' := by
  have hnil {more text : List Char} (hblank : Blank more) (hsolid : Solid (more ++ text)) :
      more = [] := by
    cases more with
    | nil => rfl
    | cons c more =>
      obtain ⟨hspace, hline⟩ := hsolid c rfl
      exact absurd (hblank c List.mem_cons_self) (not_or.2 ⟨hspace, hline⟩)
  rcases List.append_eq_append_iff.1 heq with ⟨more, rfl, rfl⟩ | ⟨more, rfl, rfl⟩
  · obtain rfl := hnil (blank_append_iff.1 h').2 hsolid
    exact ⟨(List.append_nil _).symm, rfl⟩
  · obtain rfl := hnil (blank_append_iff.1 h).2 hsolid'
    exact ⟨List.append_nil _, rfl⟩

/-- The text ends, or a line of it does. -/
def EndsLine (behind : List Char) : Prop :=
  behind = [] ∨ ∃ others, behind = '\n' :: others

theorem EndsLine.separated (h : EndsLine text) : Separated text := by
  obtain rfl | ⟨others, rfl⟩ := h
  · exact spaced_nil.separated
  · exact separated_newline others

/-- The end of a line is behind all that stands on it. -/
theorem EndsLine.exists_append {piece rest front behind : List Char} (h : EndsLine behind)
    (hline : '\n' ∉ piece) (heq : piece ++ rest = front ++ behind) :
    ∃ front', front = piece ++ front' ∧ rest = front' ++ behind := by
  rcases List.append_eq_append_iff.1 heq with ⟨more, rfl, rfl⟩ | ⟨more, rfl, rfl⟩
  · exact ⟨more, rfl, rfl⟩
  · cases more with
    | nil => exact ⟨[], by simp, rfl⟩
    | cons c more =>
      rcases h with hnil | ⟨others, hnewline⟩
      · cases hnil
      · cases hnewline
        simp at hline

/-- The indentation of the line behind a gap with line breaks. The end of the text has none. -/
def levelAfter (gap text : List Char) : Nat :=
  if text.isEmpty then 0 else columnAfter gap

/-- A gap that can take the place of another in front of a text. -/
structure SameGap (gap gap' text : List Char) : Prop where
  blank : Blank gap
  blank' : Blank gap'
  breaks : '\n' ∈ gap ↔ '\n' ∈ gap'
  level : '\n' ∈ gap → levelAfter gap' text = levelAfter gap text
  separated : Separated (gap ++ text)
  separated' : Separated (gap' ++ text)

/-- White space at the end of a line makes another gap of the same kind. -/
theorem EndsLine.sameGap {piece : List Char} (h : EndsLine (gap' ++ text))
    (hblank : Blank (gap ++ gap')) (hsolid : Solid text) (hpiece : Blank piece)
    (hend : gap' ++ text = [] → '\n' ∉ piece) :
    SameGap (gap ++ gap') (gap ++ (piece ++ gap')) text := by
  obtain ⟨hgap, hgap'⟩ := blank_append_iff.1 hblank
  have hblank' : Blank (gap ++ (piece ++ gap')) :=
    blank_append_iff.2 ⟨hgap, blank_append_iff.2 ⟨hpiece, hgap'⟩⟩
  cases gap' with
  | cons c gap' =>
    obtain hnil | ⟨others, hnewline⟩ := h
    · cases hnil
    · cases hnewline
      refine ⟨hblank, hblank', by simp, fun _ => ?_, hblank.separated (by simp),
        hblank'.separated (by simp)⟩
      rw [levelAfter, levelAfter, ← List.append_assoc, columnAfter_append_newline,
        columnAfter_append_newline]
  | nil =>
    have htext : text = [] := by
      obtain hnil | ⟨others, hnewline⟩ := h
      · exact hnil
      · obtain rfl : text = '\n' :: others := hnewline
        exact absurd rfl (hsolid _ rfl).2
    subst htext
    have hnone := hend rfl
    rw [List.append_nil, List.append_nil] at *
    refine ⟨hblank, hblank', by simp [hnone], fun _ => rfl, ?_, ?_⟩
    · exact fun c hc => hblank c (List.mem_of_mem_head? (by simpa using hc))
    · exact fun c hc => hblank' c (List.mem_of_mem_head? (by simpa using hc))

end Text

open Text (Blank Solid Separated SameGap levelAfter columnAfter)

namespace LineStart

/-- From a line break to the next word, only white space is passed. -/
theorem seek_gap {gap text : List Char} (hblank : Blank gap) (hsolid : Solid text)
    (breaks width : Nat) :
    (seek breaks width (gap ++ text)).rest = text ∧
      (seek breaks width (gap ++ text)).width = columnAfter (List.replicate width ' ' ++ gap) := by
  induction gap generalizing breaks width with
  | nil =>
    have hseek : seek breaks width text = ⟨breaks, width, text⟩ := by
      cases text with
      | nil => rfl
      | cons c text =>
        obtain ⟨hspace, hline⟩ := hsolid c rfl
        rw [seek]
        · exact fun others heq => hspace (List.cons.inj heq).1
        · exact fun others heq => hline (List.cons.inj heq).1
    have hspaces : '\n' ∉ List.replicate width ' ' := by simp [List.mem_replicate]
    have hcolumn : columnAfter ([] ++ List.replicate width ' ') = 0 + _ :=
      Text.columnAfter_append hspaces
    rw [List.nil_append, List.length_replicate, Nat.zero_add] at hcolumn
    rw [List.nil_append, hseek, List.append_nil, hcolumn]
    exact ⟨rfl, rfl⟩
  | cons c gap ih =>
    obtain ⟨hc, hgap⟩ := List.forall_mem_cons.1 hblank
    rcases hc with rfl | rfl
    · have h := ih hgap breaks (width + 1)
      rw [List.replicate_succ', List.append_assoc] at h
      exact h
    · have h := ih hgap (breaks + 1) 0
      rw [List.cons_append, seek, Text.columnAfter_append_newline]
      exact h

theorem level_gap {gap text : List Char} (hblank : Blank gap) (hsolid : Solid text) (breaks : Nat) :
    (seek breaks 0 (gap ++ text)).level = levelAfter gap text := by
  obtain ⟨hrest, hwidth⟩ := seek_gap hblank hsolid breaks 0
  rw [level, hrest, hwidth]
  rfl

end LineStart

namespace Scanner

variable {scanner after : Scanner} {tokens : List Token} {widths : List Nat}
  {text text' gap gap' : List Char}

/-! ## Reading a gap -/

/-- A gap leads to its first line break. -/
theorem exists_break (text : List Char) (hblank : Blank gap) (hbreak : '\n' ∈ gap) : ∃ rest,
    (gap ++ text).dropWhile (· == ' ') = '\n' :: (rest ++ text) ∧ Blank rest ∧
      columnAfter rest = columnAfter gap := by
  obtain ⟨spaces, rest, rfl, hspaces⟩ := List.eq_append_cons_of_mem hbreak
  obtain ⟨hblank', hrest⟩ := Text.blank_append_iff.1 hblank
  refine ⟨rest, ?_, (List.forall_mem_cons.1 hrest).2, (Text.columnAfter_append_newline _ _).symm⟩
  rw [List.append_assoc, List.dropWhile_append, hblank'.dropWhile hspaces]
  rfl

/-- A gap with line breaks is read by the column behind it. -/
theorem Reads.breaks {kinds : List Token.Kind} (hblank : Blank gap) (hbreak : '\n' ∈ gap)
    (hsolid : Solid text) (hkinds : (Layout.mk widths).breaks? (levelAfter gap text) = some kinds) :
    Reads widths (gap ++ text) (.bare .newline "\n" :: kinds.map (.bare · ""))
      ((Layout.mk widths).enter (levelAfter gap text)).widths text := by
  intro scanner hat
  obtain ⟨rest, hskip, hrest, hcolumn⟩ := exists_break text hblank hbreak
  have hlayout : scanner.layout = ⟨widths⟩ := congrArg Layout.mk hat.widths
  have hlevel : (LineStart.seek 1 0 (rest ++ text)).level = levelAfter gap text := by
    rw [LineStart.level_gap hrest hsolid, levelAfter, hcolumn]
    rfl
  have hskip' : scanner.skipSpaces.rest = '\n' :: (rest ++ text) := by
    rw [← hskip, ← hat.rest]
    rfl
  rw [← hlevel, ← hlayout] at hkinds
  obtain ⟨hresult, hafter⟩ := (Step.lineBreak hat.pending hskip' hkinds).next_eq
  have hbreaks : scanner.PendingBreaks := by simp [PendingBreaks, hat.pending]
  have hdelivers := Delivers.step hresult rfl (delivers_pending (regular_next hbreaks).2)
  rw [hafter] at hdelivers
  refine ⟨_, _, hdelivers, ⟨(LineStart.seek_gap hrest hsolid 1 0).1, ?_, rfl⟩,
    .cons _ _ (.map (fun _ => ⟨_, _, rfl⟩) kinds)⟩
  show (scanner.layout.enter (LineStart.seek 1 0 (rest ++ text)).level).widths = _
  rw [hlevel, hlayout]

/-! ## The text of a passage -/

/-- A passage leads over a beginning of the text. -/
theorem Passes.exists_passed (h : Passes scanner tokens after) :
    ∃ passed, scanner.rest = passed ++ after.rest := by
  induction h with
  | refl => exact ⟨[], rfl⟩
  | @cut scanner after kind value rest tokens hcut _ ih =>
    obtain ⟨passed, hpassed⟩ := ih
    refine ⟨scanner.spaces ++ (value.toList ++ passed), ?_⟩
    rw [← spaces_append, Token.eq_append_of_cut? hcut, List.append_assoc, List.append_assoc,
      ← hpassed]
    rfl
  | @lineBreak scanner after rest kinds tokens hrest hkinds _ ih =>
    obtain ⟨passed, hpassed⟩ := ih
    obtain ⟨gap, -, hgap, -⟩ := exists_passed_afterBreak hrest
    exact ⟨gap ++ passed, by rw [hgap, hpassed, List.append_assoc]⟩

/-- A passage over no text delivers nothing. -/
theorem Passes.eq_nil_of_rest (h : Passes scanner tokens after) (hrest : after.rest = scanner.rest) :
    tokens = [] := by
  cases h with
  | refl => rfl
  | @cut _ _ kind value rest tokens hcut hpasses =>
    obtain ⟨passed, hpassed⟩ := hpasses.exists_passed
    obtain ⟨c, others, hvalue, -⟩ := Token.exists_head_of_cut? hcut
    have htext : scanner.rest = scanner.spaces ++ (value.toList ++ (passed ++ after.rest)) := by
      rw [← hpassed, ← spaces_append, Token.eq_append_of_cut? hcut]
      rfl
    have hlength := congrArg List.length htext
    rw [← hrest, hvalue] at hlength
    simp at hlength
    omega
  | @lineBreak _ _ rest kinds tokens hbreak hkinds hpasses =>
    obtain ⟨passed, hpassed⟩ := hpasses.exists_passed
    obtain ⟨gap, earlier, hgap, -, -, hlast⟩ := exists_passed_afterBreak hbreak
    have hlength := congrArg List.length hgap
    rw [hpassed, ← hrest, hlast] at hlength
    simp at hlength
    omega

/-- What a line break passes is a gap, and its level is the one behind it. -/
theorem exists_gap_afterBreak {rest : List Char} (hrest : scanner.skipSpaces.rest = '\n' :: rest) :
    ∃ gap, scanner.rest = gap ++ (scanner.afterBreak rest).rest ∧ Blank gap ∧ '\n' ∈ gap ∧
      Solid (scanner.afterBreak rest).rest ∧
        (LineStart.seek 1 0 rest).level = levelAfter gap (scanner.afterBreak rest).rest := by
  obtain ⟨gap, earlier, hgap, hblank, -, hlast⟩ := exists_passed_afterBreak hrest
  have hspaces : '\n' ∉ List.replicate (scanner.afterBreak rest).column ' ' := by
    simp [List.mem_replicate]
  refine ⟨gap, hgap, hblank, by simp [hlast], fun c hc => ?_, ?_⟩
  · obtain ⟨others, hothers⟩ := List.head?_eq_some_iff.1 hc
    exact head_rest_afterBreak hothers
  · rw [levelAfter, hlast, Text.columnAfter_newline _ hspaces, List.length_replicate]
    rfl

/-! ## Reading a passage again -/

/-- A text that can stand behind some tokens instead of another: it is the same, or white space comes
first in both, and the last token is a word. -/
inductive Exchanges (tokens : List Token) (text : List Char) : List Char → Prop
  | same : Exchanges tokens text text
  | separated {text' : List Char} (h : Separated text) (h' : Separated text')
    (hlast : ∀ token ∈ tokens.getLast?, token.kind.isSynthetic = false) : Exchanges tokens text text'

theorem Exchanges.tail {token : Token} (h : Exchanges (token :: tokens) text text') :
    Exchanges tokens text text' := by
  cases h with
  | same => exact .same
  | separated h h' hlast =>
    refine .separated h h' fun last hmem => hlast last ?_
    cases tokens with
    | nil => cases hmem
    | cons first tokens => rwa [List.getLast?_cons_cons]

theorem Exchanges.of_append {earlier : List Token} (h : Exchanges (earlier ++ tokens) text text') :
    Exchanges tokens text text' := by
  induction earlier with
  | nil => exact h
  | cons token earlier ih => exact ih h.tail

/-- A token in front of the exchanged text is cut off as before. -/
theorem Exchanges.cut? {kind : Token.Kind} {value : String} {passed : List Char}
    (h : Exchanges tokens text text')
    (hcut : Token.cut? (value.toList ++ (passed ++ text)) = some (kind, value, passed ++ text)) :
    Token.cut? (value.toList ++ (passed ++ text')) = some (kind, value, passed ++ text') := by
  cases h with
  | same => exact hcut
  | separated h h' =>
    obtain ⟨c, others, hvalue, -⟩ := Token.exists_head_of_cut? hcut
    rw [hvalue, List.cons_append, ← List.append_assoc] at hcut ⊢
    exact Token.cut?_exchange h h' hcut

/-- Behind a line break, the exchange leaves the first word of the line. -/
theorem Exchanges.solid {kinds : List Token.Kind} {passed : List Char} {here : Scanner}
    (h : Exchanges (here.breakTokens kinds ++ tokens) after.rest text')
    (hkinds : ∀ kind ∈ kinds, kind.isSynthetic = true) (hpasses : Passes scanner tokens after)
    (hrest : scanner.rest = passed ++ after.rest) (hsolid : Solid scanner.rest) :
    Solid (passed ++ text') ∧ ∀ gap, levelAfter gap (passed ++ text') = levelAfter gap scanner.rest := by
  cases h with
  | same => exact ⟨hrest ▸ hsolid, fun gap => by rw [hrest]⟩
  | separated _ _ hlast =>
    -- The last token is a word, so that the line has one.
    have hne : tokens ≠ [] := by
      rintro rfl
      have hbreaks : ∀ token ∈ here.breakTokens kinds, token.kind.isSynthetic = true := by
        refine List.forall_mem_cons.2 ⟨rfl, fun token htoken => ?_⟩
        obtain ⟨kind, hkind, rfl⟩ := List.mem_map.1 htoken
        exact hkinds kind hkind
      have hmem := List.getLast?_eq_some_getLast (List.cons_ne_nil (here.mark .newline "\n")
        (kinds.map (here.mark · "")))
      rw [List.append_nil] at hlast
      have hplain := hlast _ hmem
      rw [hbreaks _ (List.mem_of_getLast? hmem)] at hplain
      cases hplain
    cases passed with
    | nil => exact absurd (hpasses.eq_nil_of_rest hrest.symm) hne
    | cons c passed =>
      rw [hrest] at hsolid ⊢
      exact ⟨fun first hfirst => hsolid first hfirst, fun gap => rfl⟩

theorem dropWhile_spaces (scanner : Scanner) : scanner.spaces.dropWhile (· == ' ') = [] :=
  Blank.dropWhile (fun _ hc => .inl (eq_space_of_mem_spaces hc)) scanner.newline_not_mem_spaces

/-- The tokens of a passage are read again where the text behind it is exchanged. -/
theorem Passes.reads_exchanged {passed : List Char} (h : Passes scanner tokens after)
    (hrest : scanner.rest = passed ++ after.rest) (hexchanges : Exchanges tokens after.rest text') :
    Reads scanner.layout.widths (passed ++ text') (tokens.map fun token => .bare token.kind token.value)
      after.layout.widths text' := by
  induction h generalizing passed with
  | refl =>
    rw [List.self_eq_append_left.1 hrest]
    exact .refl
  | @cut scanner after kind value rest tokens hcut hpasses ih =>
    obtain ⟨passed', hpassed⟩ := hpasses.exists_passed
    have hpassed' : rest = passed' ++ after.rest := hpassed
    have htext := Token.eq_append_of_cut? hcut
    rw [htext, hpassed'] at hcut
    have hsplit : passed = scanner.spaces ++ (value.toList ++ passed') := by
      rw [← spaces_append, htext, hpassed'] at hrest
      refine List.append_cancel_right (hrest.symm.trans ?_)
      simp only [List.append_assoc]
    rw [hsplit, List.append_assoc, List.append_assoc]
    have hfirst : Reads scanner.layout.widths _ _ _ _ := Reads.cut (hexchanges.cut? hcut)
    exact (hfirst.trans (ih hpassed hexchanges.tail)).spaces (List.cons_ne_nil _ _)
      scanner.dropWhile_spaces
  | @lineBreak scanner after rest kinds tokens hnewline hkinds hpasses ih =>
    obtain ⟨gap, hgap, hblank, hbreak, hsolid, hlevel⟩ := exists_gap_afterBreak hnewline
    obtain ⟨passed', hpassed⟩ := hpasses.exists_passed
    have hsplit : passed = gap ++ passed' := by
      rw [hgap, hpassed, ← List.append_assoc] at hrest
      exact (List.append_cancel_right hrest).symm
    obtain ⟨hsolid', hlevel'⟩ := hexchanges.solid (Layout.isSynthetic_of_breaks? hkinds) hpasses
      hpassed hsolid
    rw [hlevel, ← hlevel'] at hkinds
    have hfirst := Reads.breaks hblank hbreak hsolid' hkinds
    rw [hlevel', ← hlevel] at hfirst
    rw [hsplit, List.append_assoc, breakTokens, List.cons_append, List.map_cons, List.map_append,
      List.map_map]
    exact hfirst.trans (ih hpassed hexchanges.of_append)

theorem Passes.reads_again (h : Passes scanner tokens after) :
    Reads scanner.layout.widths scanner.rest (tokens.map fun token => .bare token.kind token.value)
      after.layout.widths after.rest := by
  obtain ⟨passed, hpassed⟩ := h.exists_passed
  rw [hpassed]
  exact h.reads_exchanged hpassed .same

/-- What follows a gap is read again behind another gap, up to spaces at the end of the text. -/
theorem Passes.reads_gap (h : Passes scanner tokens after) (hend : after.skipSpaces.rest = [])
    (hrest : scanner.rest = gap ++ text) (hsolid : Solid text) (hgap : SameGap gap gap' text) :
    ∃ behind, behind.dropWhile (· == ' ') = [] ∧ Reads scanner.layout.widths (gap' ++ text)
      (tokens.map fun token => .bare token.kind token.value) after.layout.widths behind := by
  have hspaces : Blank scanner.spaces := fun _ hc => .inl (eq_space_of_mem_spaces hc)
  cases h with
  | refl =>
    obtain ⟨hsame, htext⟩ := hspaces.unique hgap.blank (by simp [Solid, hend]) hsolid
      ((spaces_append scanner).trans hrest)
    rw [hend] at htext
    rw [← hsame] at hgap
    refine ⟨gap' ++ text, ?_, .refl⟩
    rw [← htext, List.append_nil]
    exact hgap.blank'.dropWhile (mt hgap.breaks.2 scanner.newline_not_mem_spaces)
  | @cut _ _ kind value rest tokens hcut hpasses =>
    obtain ⟨c, others, hvalue, hc⟩ := Token.exists_head_of_cut? hcut
    have hsolid' : Solid scanner.skipSpaces.rest := by
      rw [Token.eq_append_of_cut? hcut, hvalue]
      intro first hfirst
      cases hfirst
      exact hc
    obtain ⟨hsame, htext⟩ := hspaces.unique hgap.blank hsolid' hsolid
      ((spaces_append scanner).trans hrest)
    rw [← hsame] at hgap
    rw [htext] at hcut
    have hfirst : Reads scanner.layout.widths _ _ _ _ := Reads.cut hcut
    refine ⟨after.rest, hend, (hfirst.trans hpasses.reads_again).spaces (List.cons_ne_nil _ _) ?_⟩
    exact hgap.blank'.dropWhile (mt hgap.breaks.2 scanner.newline_not_mem_spaces)
  | @lineBreak _ _ rest kinds tokens hnewline hkinds hpasses =>
    obtain ⟨passed, hpassed, hblank, hbreak, hsolid', hlevel⟩ := exists_gap_afterBreak hnewline
    obtain ⟨hsame, htext⟩ := hblank.unique hgap.blank hsolid' hsolid (hpassed.symm.trans hrest)
    rw [hsame] at hbreak
    rw [hsame, htext, ← hgap.level hbreak] at hlevel
    rw [hlevel] at hkinds
    have hfirst := Reads.breaks hgap.blank' (hgap.breaks.1 hbreak) hsolid hkinds
    have hrest' := hpasses.reads_again
    rw [htext] at hrest'
    rw [← hlevel] at hfirst
    refine ⟨after.rest, hend, ?_⟩
    rw [breakTokens, List.cons_append, List.map_cons, List.map_append, List.map_map]
    exact hfirst.trans hrest'

end Scanner

end Offside
