import Offside.Proofs.Indentation
import Offside.Proofs.Scanner.Passes
import Offside.Proofs.Token.Lines

/-!
# The tokens of a text come in lines

`Token.linesOf_of_tokenize` says how the tokens of a text are laid out: in lines, whose newline
tokens are followed by the blocks that open or close there, none of them empty but the last, with
widths that follow the depth of the blocks (`Token.LinesOf`). The widths are those of the lines with
text. Spaces at the end of a text are an exception: they open no block, however many they are
(`Token.not_follows_of_blank_end`).
-/

namespace Offside

open Token (Line cutLines Leads)

/-- The text ends in a line break with nothing but spaces after it. -/
def Text.EndsBlank (text : List Char) : Prop :=
  ∃ spaces, '\n' :: spaces <:+ text ∧ ∀ c ∈ spaces, c = ' '

/-- The tokens of a text: those before its first line break, its other lines, and the end token. -/
structure Token.LinesOf (source : String) (stream first : List Token) (lines : List Line)
    (last : Token) : Prop where
  stream_eq : stream = first ++ lines.flatMap Line.tokens ++ [last]
  isEnd : last.kind = .endOfText
  plain : ∀ token ∈ first, token.kind.isSynthetic = false
  wellFormed : ∀ line ∈ lines, line.WellFormed
  /-- Only the last line can be empty. -/
  inner : ∀ line ∈ lines.dropLast, line.content ≠ []
  ending : ∀ line ∈ lines.getLast?, line.content = [] ↔ Text.EndsBlank source.toList
  /-- An empty last line closes all blocks. -/
  closed : ∀ line ∈ lines.getLast?, line.content = [] →
    (∀ shift ∈ line.shifts, shift.kind ≠ .indent) ∧ depth stream = 0
  /-- No block closes before it opens. -/
  nested : ∀ earlier, earlier <+: stream → 0 ≤ depth earlier
  widths : ∀ i j, i < j → (∀ line ∈ lines[j]?, line.content ≠ []) → Follows source first lines i j

/-! ## Blank ends -/

namespace Text

variable {text before : List Char}

/-- Text without a line break does not matter for how the text after it ends. -/
theorem endsBlank_append_iff (h : '\n' ∉ before) : EndsBlank (before ++ text) ↔ EndsBlank text := by
  constructor
  · rintro ⟨spaces, hsuffix, hspaces⟩
    refine ⟨spaces, ?_, hspaces⟩
    rcases List.suffix_or_suffix_of_suffix hsuffix (List.suffix_append before text) with
      hshort | ⟨extra, hextra⟩
    · exact hshort
    · -- A longer suffix would begin with the line break inside `before`.
      cases extra with
      | nil => exact ⟨[], by simpa using hextra.symm⟩
      | cons c extra =>
        rw [List.cons_append] at hextra
        obtain ⟨earlier, hearlier⟩ := hsuffix
        rw [← hextra, ← List.cons_append, ← List.append_assoc] at hearlier
        rw [← List.append_cancel_right hearlier, (List.cons.inj hextra).1] at h
        simp at h
  · rintro ⟨spaces, hsuffix, hspaces⟩
    exact ⟨spaces, hsuffix.trans (List.suffix_append before text), hspaces⟩

/-- Text that begins with a word ends in a blank only after that word. -/
theorem endsBlank_append_cons_iff {c : Char} (hspace : c ≠ ' ') (hnewline : c ≠ '\n') :
    EndsBlank (before ++ c :: text) ↔ EndsBlank (c :: text) := by
  constructor
  · rintro ⟨spaces, hsuffix, hspaces⟩
    refine ⟨spaces, ?_, hspaces⟩
    rcases List.suffix_or_suffix_of_suffix hsuffix (List.suffix_append before (c :: text)) with
      hshort | hlong
    · exact hshort
    · rcases List.mem_cons.1 (hlong.subset List.mem_cons_self) with rfl | hmem
      · exact absurd rfl hnewline
      · exact absurd (hspaces c hmem) hspace
  · rintro ⟨spaces, hsuffix, hspaces⟩
    exact ⟨spaces, hsuffix.trans (List.suffix_append before _), hspaces⟩

theorem not_endsBlank (h : '\n' ∉ text) : ¬ EndsBlank text :=
  fun ⟨_, hsuffix, _⟩ => h (hsuffix.subset List.mem_cons_self)

end Text

namespace Scanner

variable {scanner after : Scanner} {tokens : List Token}

/-- The shifts of a line break. -/
theorem shifts_of_breaks {layout : Layout} {level : Nat} {kinds : List Token.Kind}
    (here : Scanner) (h : layout.Breaks level kinds) :
    (∀ shift ∈ kinds.map (here.mark · ""), shift.isShift = true) ∧
      ((kinds.map (here.mark · "")).map Token.kind = [] ∨
        (kinds.map (here.mark · "")).map Token.kind = [.indent] ∨
          ∃ count, (kinds.map (here.mark · "")).map Token.kind =
            List.replicate (count + 1) .outdent) := by
  have hkinds : (kinds.map (here.mark · "")).map Token.kind = kinds := by
    rw [List.map_map]
    exact List.map_id' kinds
  rw [hkinds]
  cases h with
  | stay => exact ⟨by simp, .inl rfl⟩
  | deeper => exact ⟨List.forall_mem_singleton.2 rfl, .inr (.inl rfl)⟩
  | back count =>
    refine ⟨fun shift hshift => ?_, .inr (.inr ⟨count, rfl⟩)⟩
    obtain ⟨kind, hkind, rfl⟩ := List.mem_map.1 hshift
    rw [List.eq_of_mem_replicate hkind]
    rfl

/-- A line break and the tokens after it are cut into a line and the lines after it. -/
theorem cutLines_breakTokens {layout : Layout} {level : Nat} {kinds : List Token.Kind}
    (here : Scanner) (hkinds : layout.Breaks level kinds)
    (hfirst : ∀ token ∈ (cutLines tokens).1, token.kind.isSynthetic = false) :
    cutLines (here.breakTokens kinds ++ tokens) =
      ([], ⟨here.mark .newline "\n", kinds.map (here.mark · ""), (cutLines tokens).1⟩ ::
        (cutLines tokens).2) :=
  Token.cutLines_line rfl (shifts_of_breaks here hkinds).1 hfirst

/-- The tokens of a passage are cut into those of the current line, and lines. -/
theorem Passes.wellFormed (h : Passes scanner tokens after) (hbottom : 0 ∈ scanner.layout.widths) :
    (∀ token ∈ (cutLines tokens).1, token.kind.isSynthetic = false ∧ token.line = scanner.line) ∧
      ∀ line ∈ (cutLines tokens).2, line.WellFormed := by
  induction h with
  | refl => simp [cutLines]
  | cut hcut _ ih =>
    obtain ⟨hfirst, hlines⟩ := ih hbottom
    have hkind := Token.Kind.isSynthetic_of_cut? hcut
    rw [Token.cutLines_cons (Token.isNewline_of_plain hkind)]
    exact ⟨List.forall_mem_cons.2 ⟨⟨hkind, rfl⟩, hfirst⟩, hlines⟩
  | @lineBreak scanner after rest kinds tokens hrest hkinds _ ih =>
    obtain ⟨hfirst, hlines⟩ := ih (Layout.bottom_enter hbottom)
    have hplain := fun token hmem => (hfirst token hmem).1
    have hbreaks := Layout.breaks_of_breaks? hkinds hbottom
    rw [cutLines_breakTokens _ hbreaks hplain]
    refine ⟨by simp, List.forall_mem_cons.2 ⟨?_, hlines⟩⟩
    refine ⟨rfl, (shifts_of_breaks _ hbreaks).2, hplain, fun token hmem => ?_⟩
    simp only [Line.tokens, Line.start, List.cons_append, List.mem_cons, List.mem_append,
      List.mem_map] at hmem
    obtain rfl | ⟨kind, -, rfl⟩ | hcontent := hmem
    · rfl
    · rfl
    · exact (hfirst token hcontent).2

theorem Passes.plain (h : Passes scanner tokens after) (hbottom : 0 ∈ scanner.layout.widths) :
    ∀ token ∈ (cutLines tokens).1, token.kind.isSynthetic = false :=
  fun token hmem => ((h.wellFormed hbottom).1 token hmem).1

/-- A passage from a word to the end of a text has tokens on the line of that word. -/
theorem Passes.first_ne_nil {c : Char} {others : List Char} (h : Passes scanner tokens after)
    (hend : after.skipSpaces.rest = []) (hrest : scanner.rest = c :: others)
    (hc : c ≠ ' ' ∧ c ≠ '\n') : (cutLines tokens).1 ≠ [] := by
  obtain ⟨token, later, rfl, hkind⟩ := h.exists_plain hend hrest hc
  rw [Token.cutLines_cons (Token.isNewline_of_plain hkind)]
  exact List.cons_ne_nil _ _

/-- Only the last line can be empty. -/
theorem Passes.inner (h : Passes scanner tokens after) (hend : after.skipSpaces.rest = [])
    (hbottom : 0 ∈ scanner.layout.widths) :
    ∀ line ∈ (cutLines tokens).2.dropLast, line.content ≠ [] := by
  induction h with
  | refl => simp [cutLines]
  | cut hcut _ ih =>
    rw [Token.cutLines_cons (Token.isNewline_of_plain (Token.Kind.isSynthetic_of_cut? hcut))]
    exact ih hend hbottom
  | @lineBreak scanner after rest kinds tokens hrest hkinds hpasses ih =>
    have hbottom' : 0 ∈ (scanner.afterBreak rest).layout.widths := Layout.bottom_enter hbottom
    rw [cutLines_breakTokens _ (Layout.breaks_of_breaks? hkinds hbottom) (hpasses.plain hbottom')]
    cases hlines : (cutLines tokens).2 with
    | nil => simp
    | cons line lines =>
      rw [List.dropLast_cons_cons, ← hlines]
      refine List.forall_mem_cons.2 ⟨?_, ih hend hbottom'⟩
      cases hahead : (scanner.afterBreak rest).rest with
      | nil =>
        rw [hpasses.eq_nil hahead] at hlines
        cases hlines
      | cons c others => exact hpasses.first_ne_nil hend hahead (head_rest_afterBreak hahead)

/-- The text up to where a line break leads. -/
theorem exists_before_afterBreak {rest : List Char}
    (hrest : scanner.skipSpaces.rest = '\n' :: rest) :
    ∃ before, scanner.rest = before ++ (scanner.afterBreak rest).rest ∧ Text.EndsBlank before := by
  obtain ⟨passed, earlier, htext, -, -, hlast⟩ := exists_passed_afterBreak hrest
  exact ⟨passed, htext, List.replicate (scanner.afterBreak rest).column ' ',
    hlast ▸ List.suffix_append _ _, fun c => List.eq_of_mem_replicate⟩

/-- The last line is empty where the text ends blank, and then all blocks are closed. -/
theorem Passes.last (h : Passes scanner tokens after) (hend : after.skipSpaces.rest = [])
    (hbottom : 0 ∈ scanner.layout.widths) (hdescends : scanner.layout.Descends) :
    ((cutLines tokens).2 = [] → ¬ Text.EndsBlank scanner.rest) ∧
      ∀ line ∈ (cutLines tokens).2.getLast?, (line.content = [] ↔ Text.EndsBlank scanner.rest) ∧
        (line.content = [] → (∀ shift ∈ line.shifts, shift.kind = .outdent) ∧
          after.layout.widths = [0]) := by
  induction h with
  | @refl scanner =>
    refine ⟨fun _ => Text.not_endsBlank ?_, by simp [cutLines]⟩
    rw [← spaces_append, hend, List.append_nil]
    exact newline_not_mem_spaces scanner
  | @cut scanner after kind value rest tokens hcut _ ih =>
    have htext : scanner.rest = scanner.spaces ++ value.toList ++ rest := by
      rw [List.append_assoc, ← Token.eq_append_of_cut? hcut, spaces_append]
    have hline : '\n' ∉ scanner.spaces ++ value.toList := by
      simp [newline_not_mem_spaces, Token.newline_not_mem_of_cut? hcut]
    rw [Token.cutLines_cons (Token.isNewline_of_plain (Token.Kind.isSynthetic_of_cut? hcut)), htext,
      Text.endsBlank_append_iff hline]
    exact ih hend hbottom hdescends
  | @lineBreak scanner after rest kinds tokens hrest hkinds hpasses ih =>
    have hbottom' : 0 ∈ (scanner.afterBreak rest).layout.widths := Layout.bottom_enter hbottom
    obtain ⟨hnone, hlast⟩ := ih hend hbottom' (Layout.descends_enter hdescends _)
    obtain ⟨before, htext, hblank⟩ := exists_before_afterBreak hrest
    rw [cutLines_breakTokens _ (Layout.breaks_of_breaks? hkinds hbottom) (hpasses.plain hbottom')]
    refine ⟨fun h => absurd h (List.cons_ne_nil _ _), ?_⟩
    cases hahead : (scanner.afterBreak rest).rest with
    | nil =>
      -- The break is the last of the text, and its line the last line.
      obtain ⟨hclosing, hwidths⟩ := breaks?_of_rest_nil hkinds hahead hbottom hdescends
      obtain rfl := hpasses.eq_nil hahead
      cases hpasses
      rw [htext, hahead, List.append_nil, hclosing]
      simp [cutLines, hblank, hwidths, mark]
    | cons c others =>
      -- There is a word behind the break, which leaves the end of the text to the rest.
      obtain ⟨hspace, hnewline⟩ := head_rest_afterBreak hahead
      have hfirst := hpasses.first_ne_nil hend hahead ⟨hspace, hnewline⟩
      rw [htext, hahead, Text.endsBlank_append_cons_iff hspace hnewline, ← hahead]
      cases hlines : (cutLines tokens).2 with
      | nil => simp [hfirst, hnone hlines]
      | cons line lines =>
        rw [List.getLast?_cons_cons, ← hlines]
        exact hlast

end Scanner

namespace Token

variable {source : String} {file : Option String} {stream : List Token}

/-- Every text that has tokens has them in lines. The widths of the lines follow the depth of their
blocks, if there is text on them. -/
theorem linesOf_of_tokenize (h : (tokenize source file).result = .ok stream) :
    ∃ tokens last, stream = tokens ++ [last] ∧
      LinesOf source stream (cutLines tokens).1 (cutLines tokens).2 last := by
  obtain ⟨tokens, last, rfl⟩ := Scanner.exists_append_of_tokenize h
  obtain ⟨after, hdelivers, hends⟩ := tokenize_eq_ok_iff.1 h
  obtain ⟨hpasses, hnone, hend, -⟩ := hdelivers.passes_of_ends hends
  have hbottom : 0 ∈ (Scanner.ofText source file).layout.widths := List.mem_singleton.2 rfl
  have hdescends : (Scanner.ofText source file).layout.Descends := List.pairwise_singleton _ _
  have hlast : last.kind = .endOfText := beq_iff_eq.1 hends.isEnd
  have hstart : Leads 0 (Scanner.ofText source file).pending 0 := .nil
  obtain ⟨deep, hleads, hdeep⟩ := hdelivers.leads hbottom hstart
  rw [hnone] at hdeep
  cases hdeep
  have hstream : Leads 0 (tokens ++ [last]) after.layout.depth := by
    refine leads_append_iff.2 ⟨_, hleads, .cons ⟨?_, ?_, fun _ _ => rfl⟩ .nil⟩ <;> simp [hlast]
  obtain ⟨hplain, hlines⟩ := hpasses.wellFormed hbottom
  obtain ⟨-, hending⟩ := hpasses.last hend hbottom hdescends
  have hinner := hpasses.inner hend hbottom
  have hlaid := laid_of_tokenize h
  rw [← append_cutLines tokens] at hlaid hleads
  refine ⟨tokens, last, rfl, by rw [append_cutLines], hlast,
    fun token hmem => (hplain token hmem).1, hlines, hinner,
    fun line hline => (hending line hline).1, fun line hline hempty => ?_,
    fun earlier ⟨later, hlater⟩ => ?_, fun i j hij hj => ?_⟩
  · obtain ⟨hshifts, hwidths⟩ := (hending line hline).2 hempty
    refine ⟨fun shift hshift => by simp [hshifts shift hshift], ?_⟩
    rw [hstream.depth_eq, Layout.depth, hwidths]
    rfl
  · rw [← hlater, leads_append_iff] at hstream
    obtain ⟨height, hearlier, -⟩ := hstream
    rw [hearlier.depth_eq]
    omega
  · exact follows hij hlaid hleads hlines hinner hj

/-- A block of two lines, which closes before the last line. -/
theorem linesOf_of_tokenize_block :
    let source := "a\n  b\n  c\nd"
    ∃ stream, (tokenize source none).result = .ok stream ∧ ∃ tokens last,
      stream = tokens ++ [last] ∧
        LinesOf source stream (cutLines tokens).1 (cutLines tokens).2 last := by
  intro source
  obtain ⟨stream, hstream⟩ := exists_of_isOk
    (by decide +kernel : (tokenize source none).result.isOk = true)
  exact ⟨stream, hstream, linesOf_of_tokenize hstream⟩

/-- A last line of spaces is not as wide as a line of the same depth. -/
theorem not_follows_of_blank_end :
    let source := "a\nb\n   "
    ∃ tokens last, (tokenize source none).result = .ok (tokens ++ [last]) ∧
      ¬ ∀ i j, i < j → j < (cutLines tokens).2.length →
        Follows source (cutLines tokens).1 (cutLines tokens).2 i j := by
  intro source
  let tokens : List Token := [⟨.identifier, "a", 1, 0⟩, ⟨.newline, "\n", 2, 0⟩,
    ⟨.identifier, "b", 2, 0⟩, ⟨.newline, "\n", 3, 0⟩]
  have hlexed : (tokenize source none).result.toOption =
      some (tokens ++ [⟨.endOfText, "", 3, 3⟩]) := by decide +kernel
  refine ⟨tokens, ⟨.endOfText, "", 3, 3⟩, ?_, fun h => ?_⟩
  · cases hresult : (tokenize source none).result with
    | error fault => simp [hresult, Except.toOption] at hlexed
    | ok stream =>
      rw [hresult] at hlexed
      exact congrArg _ (Option.some.inj hlexed)
  · obtain ⟨hsame, -⟩ := h 0 1 (by decide) (by decide) _ _ rfl rfl fun k hk hk' => by
      obtain rfl : k = 1 := by omega
      decide
    exact absurd (hsame (by decide)) (by decide +kernel)

end Token

end Offside
