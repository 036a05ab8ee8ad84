import Offside.Proofs.Cursor.View
import Offside.Proofs.Text.Indentation
import Offside.Proofs.Token.Cut

/-!
# Tokens stand where their lines are

`Laid` walks over tokens with a stack of widths, one for each open block: an indent token opens a
block at the width of its line, an outdent token closes the innermost one, and every other token
stands on a line as wide as the innermost block. The tokens of a text are laid that way
(`laid_stream`), where the width of a line is its indentation in the text. The invariant is
`Scanner.Placed`: the scanner knows its line, and the layout has the width of that line.
-/

namespace Offside

/-- Tokens on lines of the widths `w`, below the open blocks of the given widths. -/
def Laid (w : Nat → Nat) : List Nat → List Token → Prop
  | _, [] => True
  | widths, token :: tokens =>
    match token.kind with
    | .newline => Laid w widths tokens
    | .indent => widths.headD 0 < w token.line ∧ Laid w (w token.line :: widths) tokens
    | .outdent => Laid w widths.tail tokens
    | _ => w token.line = widths.headD 0 ∧ Laid w widths tokens

/-! ## Line starts -/

namespace LineStart

variable {breaks width : Nat} {text : List Char}

/-- What is passed on the way to a line: `consumed`, which holds one line feed for each line that
ends, and which ends in the spaces of that line. -/
theorem exists_consumed (breaks width : Nat) (text : List Char) :
    ∃ consumed before, text = consumed ++ (seek breaks width text).rest ∧
      (seek breaks width text).breaks = breaks + consumed.count '\n' ∧
        '\n' :: (List.replicate width ' ' ++ consumed) =
          before ++ '\n' :: List.replicate (seek breaks width text).width ' ' := by
  fun_induction seek breaks width text with
  | case1 breaks width rest ih =>
    obtain ⟨consumed, before, htext, hbreaks, hlast⟩ := ih
    refine ⟨' ' :: consumed, before, by rw [List.cons_append, ← htext], ?_, ?_⟩
    · rw [hbreaks, List.count_cons_of_ne (by decide)]
    · rw [← hlast, List.replicate_succ', List.append_assoc]
      rfl
  | case2 breaks width rest ih =>
    obtain ⟨consumed, before, htext, hbreaks, hlast⟩ := ih
    refine ⟨'\n' :: consumed, '\n' :: (List.replicate width ' ' ++ before),
      by rw [List.cons_append, ← htext], ?_, ?_⟩
    · rw [hbreaks, List.count_cons_self]
      omega
    · rw [List.replicate_zero, List.nil_append] at hlast
      rw [hlast, List.cons_append, List.append_assoc]
  | case3 breaks width rest hspace hnewline => exact ⟨[], [], rfl, rfl, by simp⟩

/-- A line that is found begins with a character that is neither a space nor a line feed. -/
theorem head_rest_seek {c : Char} {others : List Char}
    (h : (seek breaks width text).rest = c :: others) : c ≠ ' ' ∧ c ≠ '\n' := by
  fun_induction seek breaks width text with
  | case1 _ _ _ ih => exact ih h
  | case2 _ _ _ ih => exact ih h
  | case3 breaks width rest hspace hnewline =>
    refine ⟨fun hc => ?_, fun hc => ?_⟩
    · rw [hc] at h
      exact hspace others h
    · rw [hc] at h
      exact hnewline others h

end LineStart

theorem Text.leading_replicate (width : Nat) {c : Char} {others : List Char} (h : c ≠ ' ') :
    leading (List.replicate width ' ' ++ c :: others) = width := by
  induction width with
  | zero => exact leading_of_ne h
  | succ width ih => rw [List.replicate_succ, List.cons_append, leading_space, ih]

namespace Scanner

/-- The scanner stands in the text at the line that it knows, and its layout has the width of that
line. -/
structure Placed (source : String) (scanner : Scanner) : Prop where
  text : ∃ before, source.toList = before ++ scanner.rest ∧
    scanner.line = before.count '\n' + 1
  bottom : 0 ∈ scanner.layout.widths
  width : scanner.rest ≠ [] → scanner.layout.width = Text.indentation source scanner.line

variable {source : String} {scanner : Scanner}

theorem placed_ofText (source : String) (file : Option String) :
    (ofText source file).Placed source where
  text := ⟨[], rfl, rfl⟩
  bottom := List.mem_singleton.2 rfl
  width _ := rfl

theorem Placed.skipSpaces (h : scanner.Placed source) : scanner.skipSpaces.Placed source where
  text := by
    obtain ⟨before, htext, hline⟩ := h.text
    refine ⟨before ++ scanner.rest.takeWhile (· == ' '), ?_, ?_⟩
    · rw [htext, List.append_assoc]
      simp [Scanner.skipSpaces]
    · have hspaces : '\n' ∉ scanner.rest.takeWhile (· == ' ') :=
        Pattern.newline_not_mem_takeWhile _ (by decide)
      rw [List.count_append, List.count_eq_zero.2 hspaces]
      exact hline
  bottom := h.bottom
  width hrest := h.width fun hnil => hrest (by simp [Scanner.skipSpaces, hnil])

/-- On a line that is not the end of the text, the scanner has the width of that line. -/
theorem Placed.enterLine {rest : List Char} (h : scanner.Placed source)
    (hrest : scanner.rest = '\n' :: rest) :
    (∃ before, source.toList = before ++ (LineStart.seek 1 0 rest).rest ∧
        scanner.line + (LineStart.seek 1 0 rest).breaks = before.count '\n' + 1) ∧
      ((LineStart.seek 1 0 rest).rest ≠ [] → (LineStart.seek 1 0 rest).width =
        Text.indentation source (scanner.line + (LineStart.seek 1 0 rest).breaks)) := by
  obtain ⟨before, htext, hline⟩ := h.text
  obtain ⟨consumed, before', hconsumed, hbreaks, hlast⟩ := LineStart.exists_consumed 1 0 rest
  rw [List.replicate_zero, List.nil_append] at hlast
  have htext' : source.toList =
      before ++ ('\n' :: consumed) ++ (LineStart.seek 1 0 rest).rest := by
    rw [htext, hrest, List.append_assoc, List.cons_append, ← hconsumed]
  refine ⟨⟨before ++ '\n' :: consumed, htext', ?_⟩, fun hne => ?_⟩
  · rw [List.count_append, List.count_cons_self, hbreaks, hline]
    omega
  · obtain ⟨c, others, heq⟩ := List.exists_cons_of_ne_nil hne
    rw [hlast, ← List.append_assoc, List.append_assoc, heq, List.cons_append] at htext'
    have hcount := congrArg (List.count '\n') hlast
    rw [List.count_cons_self, List.count_append, List.count_cons_self,
      List.count_replicate, if_neg (by decide)] at hcount
    have hnumber : scanner.line + (LineStart.seek 1 0 rest).breaks =
        (before ++ before').count '\n' + 2 := by
      rw [List.count_append, hbreaks, hline]
      omega
    rw [hnumber, Text.indentation_eq htext',
      Text.leading_replicate _ (LineStart.head_rest_seek heq).1]

end Scanner

/-! ## Layouts -/

namespace Layout

variable {layout : Layout} {level : Nat}

theorem enter_of_stay (h : layout.shift level = .stay) (hbottom : 0 ∈ layout.widths) :
    (layout.enter level).widths = layout.widths ∧ layout.width = level := by
  obtain ⟨width, widths, hwidths⟩ := List.exists_cons_of_ne_nil (List.ne_nil_of_mem hbottom)
  have hwidth : layout.width = width := by rw [Layout.width, hwidths]; rfl
  unfold shift at h
  split at h
  · cases h
  · split at h
    · cases h
    · rename_i hdeeper hback
      rw [enter, if_neg hdeeper]
      refine ⟨?_, by omega⟩
      show layout.widths.dropWhile _ = layout.widths
      rw [hwidths, List.dropWhile_cons_of_neg (by simp; omega)]

theorem enter_of_deeper (h : layout.shift level = .deeper) :
    (layout.enter level).widths = level :: layout.widths ∧ layout.width < level := by
  unfold shift at h
  split at h
  · rename_i hdeeper
    rw [enter, if_pos hdeeper]
    exact ⟨rfl, hdeeper⟩
  · split at h <;> cases h

/-- No line closes the text itself. -/
theorem bottom_dropWhile {widths : List Nat} (level : Nat) (hbottom : 0 ∈ widths) :
    0 ∈ widths.dropWhile (level < ·) := by
  rw [← List.takeWhile_append_dropWhile (p := (level < ·)) (l := widths),
    List.mem_append] at hbottom
  refine hbottom.resolve_left fun hmem => ?_
  have := List.all_eq_true.1 (List.all_takeWhile ..) _ hmem
  simp at this

/-- A line that goes back closes as many blocks as it leaves widths behind. -/
theorem enter_of_back {closed : List Nat} (h : layout.shift level = .back closed)
    (hbottom : 0 ∈ layout.widths) :
    (layout.enter level).widths = layout.widths.drop closed.length := by
  have hsplit := List.takeWhile_append_dropWhile (p := (level < ·)) (l := layout.widths)
  have hlength := congrArg List.length hsplit
  have hpos := List.length_pos_of_mem (bottom_dropWhile level hbottom)
  rw [List.length_append] at hlength
  unfold shift at h
  split at h
  · cases h
  · rename_i hdeeper
    split at h
    · cases h
      rw [enter, if_neg hdeeper]
      show layout.widths.dropWhile _ = _
      have hclosed : (layout.widths.tail.take (layout.widths.takeWhile (level < ·)).length).length =
          (layout.widths.takeWhile (level < ·)).length := by
        rw [List.length_take, List.length_tail]
        omega
      rw [hclosed]
      have hdrop := @List.drop_left _ (layout.widths.takeWhile (level < ·))
        (layout.widths.dropWhile (level < ·))
      rw [hsplit] at hdrop
      exact hdrop.symm
    · cases h

theorem bottom_enter (hbottom : 0 ∈ layout.widths) : 0 ∈ (layout.enter level).widths := by
  unfold enter
  split
  · exact List.mem_cons_of_mem _ hbottom
  · exact bottom_dropWhile level hbottom

/-- The ways in which a line of a width that the layout allows leads from it to another, with the
classes of the tokens for that. -/
inductive Breaks (layout : Layout) (level : Nat) : List Token.Kind → Prop
  | stay (hwidth : layout.width = level) (hwidths : (layout.enter level).widths = layout.widths) :
    Breaks layout level []
  | deeper (hwidth : layout.width < level)
    (hwidths : (layout.enter level).widths = level :: layout.widths) :
    Breaks layout level [.indent]
  | back (count : Nat) (hwidth : (layout.enter level).width = level)
    (hwidths : (layout.enter level).widths = layout.widths.drop (count + 1)) :
    Breaks layout level (List.replicate (count + 1) .outdent)

theorem breaks_of_breaks? {kinds : List Token.Kind} (h : layout.breaks? level = some kinds) (hbottom : 0 ∈ layout.widths) :
    layout.Breaks level kinds := by
  rw [breaks?] at h
  cases hshift : layout.shift level with
  | stay =>
    obtain ⟨hwidths, hwidth⟩ := enter_of_stay hshift hbottom
    rw [hshift] at h
    cases h
    exact .stay hwidth hwidths
  | deeper =>
    obtain ⟨hwidths, hwidth⟩ := enter_of_deeper hshift
    rw [hshift] at h
    cases h
    exact .deeper hwidth hwidths
  | back closed =>
    have hwidths := enter_of_back hshift hbottom
    simp only [hshift] at h
    split at h
    · rename_i hwidth
      cases h
      cases closed with
      | nil => exact .stay (by rwa [width, hwidths] at hwidth) hwidths
      | cons first others =>
        rw [List.map_const', List.length_cons]
        exact .back others.length hwidth hwidths
    · cases h

theorem Breaks.width_enter {kinds : List Token.Kind} (h : layout.Breaks level kinds) :
    (layout.enter level).width = level := by
  cases h with
  | stay hwidth hwidths => rwa [width, hwidths]
  | deeper _ hwidths =>
    rw [width, hwidths]
    rfl
  | back _ hwidth => exact hwidth

end Layout

/-! ## Laid tokens -/

section

variable {w : Nat → Nat} {widths : List Nat} {token : Token} {tokens : List Token}

theorem laid_newline (h : token.kind = .newline) :
    Laid w widths (token :: tokens) ↔ Laid w widths tokens := by
  rw [Laid, h]

theorem laid_indent (h : token.kind = .indent) :
    Laid w widths (token :: tokens) ↔
      widths.headD 0 < w token.line ∧ Laid w (w token.line :: widths) tokens := by
  rw [Laid, h]

theorem laid_outdent (h : token.kind = .outdent) :
    Laid w widths (token :: tokens) ↔ Laid w widths.tail tokens := by
  rw [Laid, h]

theorem laid_plain (h : token.kind ∉ [.newline, .indent, .outdent]) :
    Laid w widths (token :: tokens) ↔ w token.line = widths.headD 0 ∧ Laid w widths tokens := by
  rw [Laid]
  revert h
  cases token.kind <;> simp

/-- Each outdent token closes a block. -/
theorem laid_outdents (h : token.kind = .outdent) (count : Nat) {widths : List Nat}
    (hlaid : Laid w (widths.drop count) tokens) :
    Laid w widths (List.replicate count token ++ tokens) := by
  induction count generalizing widths with
  | zero => exact hlaid
  | succ count ih =>
    rw [List.replicate_succ, List.cons_append, laid_outdent h]
    exact ih (by rwa [List.drop_tail])

end

namespace Scanner

variable {source : String} {scanner : Scanner}

/-- A line break leads from the layout before it to that of the next line. -/
theorem Placed.lineBreak {rest : List Char} {line : Scanner} {level : Nat}
    {kinds : List Token.Kind} (h : scanner.Placed source) (hrest : scanner.rest = '\n' :: rest)
    (hline : line = scanner.enterLine (LineStart.seek 1 0 rest))
    (hlevel : level = (LineStart.seek 1 0 rest).level)
    (hkinds : scanner.layout.breaks? level = some kinds) :
    (∀ pending, { line with pending }.Placed source) ∧
      ∀ tokens, Laid (Text.indentation source) line.layout.widths tokens →
        Laid (Text.indentation source) scanner.layout.widths
          (line.mark .newline "\n" :: (kinds.map (line.mark · "") ++ tokens)) := by
  obtain ⟨htext, hwidth⟩ := h.enterLine hrest
  have hbreaks := Layout.breaks_of_breaks? hkinds h.bottom
  subst hline hlevel
  generalize LineStart.seek 1 0 rest = start at htext hwidth hbreaks ⊢
  have hlevel (hne : start.rest ≠ []) :
      start.level = Text.indentation source (scanner.line + start.breaks) := by
    rw [LineStart.level, if_neg (by simpa using hne), hwidth hne]
  refine ⟨fun pending => ⟨htext, Layout.bottom_enter h.bottom, fun hne =>
    hbreaks.width_enter.trans (hlevel hne)⟩, fun tokens hlaid => (laid_newline rfl).2 ?_⟩
  change Laid _ (scanner.layout.enter start.level).widths tokens at hlaid
  cases hbreaks with
  | stay _ hwidths => rwa [hwidths] at hlaid
  | deeper hdeeper hwidths =>
    have hne : start.rest ≠ [] := by
      intro hnil
      rw [LineStart.level, hnil] at hdeeper
      exact Nat.not_lt_zero _ hdeeper
    rw [hwidths] at hlaid
    refine (laid_indent rfl).2 ?_
    show _ < Text.indentation source (scanner.line + start.breaks) ∧
      Laid _ (Text.indentation source (scanner.line + start.breaks) :: _) _
    rw [← hlevel hne]
    exact ⟨hdeeper, hlaid⟩
  | back count _ hwidths =>
    rw [hwidths] at hlaid
    rw [List.map_replicate]
    exact laid_outdents rfl _ hlaid

theorem Placed.cut {kind : Token.Kind} {value : String} {rest : List Char} {token : Token}
    (h : scanner.Placed source) (hcut : Token.cut? scanner.rest = some (kind, value, rest))
    (htoken : token = { kind, value, line := scanner.line, column := scanner.column }) :
    { scanner with rest, column := scanner.column + value.length, pending := [] }.Placed source ∧
      ∀ tokens, Laid (Text.indentation source) scanner.layout.widths tokens →
        Laid (Text.indentation source) scanner.layout.widths (token :: tokens) := by
  have htext := Token.eq_append_of_cut? hcut
  have hne : scanner.rest ≠ [] := by
    intro hnil
    have := Token.length_lt_of_cut? hcut
    simp [hnil] at this
  have hkind := Token.Kind.isSynthetic_of_cut? hcut
  refine ⟨⟨?_, h.bottom, fun _ => h.width hne⟩, fun tokens hlaid => ?_⟩
  · obtain ⟨before, hbefore, hline⟩ := h.text
    refine ⟨before ++ value.toList, by rw [hbefore, htext, List.append_assoc], ?_⟩
    rw [List.count_append, List.count_eq_zero.2 (Token.newline_not_mem_of_cut? hcut)]
    exact hline
  · subst htoken
    rw [laid_plain]
    · exact ⟨(h.width hne).symm, hlaid⟩
    · show kind ∉ _
      revert hkind
      cases kind <;> simp [Token.Kind.isSynthetic]

/-- A token that waits comes first; any other is laid below the blocks of the layout, and so are the
tokens that wait after it. -/
theorem Goes.placed {after : Scanner} {delivery : Delivery} {token : Token}
    (h : scanner.Goes delivery after) (hplaced : scanner.Placed source)
    (hresult : delivery.result = .ok token) (hend : token.isEnd = false) :
    after.Placed source ∧
      ∀ tokens, Laid (Text.indentation source) after.layout.widths tokens →
        ∃ others, token :: (after.pending ++ tokens) = scanner.pending ++ others ∧
          Laid (Text.indentation source) scanner.layout.widths others := by
  cases h with
  | release hpending =>
    cases hresult
    rw [hpending]
    exact ⟨⟨hplaced.text, hplaced.bottom, hplaced.width⟩, fun tokens hlaid => ⟨tokens, rfl, hlaid⟩⟩
  | stop =>
    cases hresult
    cases hend
  | lineBreak hpending hrest hline hlevel hkinds =>
    cases hresult
    obtain ⟨hafter, hlaid⟩ := hplaced.skipSpaces.lineBreak hrest hline hlevel hkinds
    rw [hpending]
    exact ⟨hafter _, fun tokens htokens => ⟨_, rfl, hlaid tokens htokens⟩⟩
  | cut hpending hcut htoken =>
    cases hresult
    obtain ⟨hafter, hlaid⟩ := hplaced.skipSpaces.cut hcut htoken
    rw [hpending]
    exact ⟨hafter, fun tokens htokens => ⟨_, rfl, hlaid tokens htokens⟩⟩
  | indentation | unrecognised => cases hresult

/-- The tokens that a scanner delivers: first those that wait, and then tokens that are laid below
the blocks of its layout. -/
theorem laid_stream (scanner : Scanner) (h : scanner.Placed source)
    (hbreaks : scanner.PendingBreaks) :
    ∃ tokens, Delivery.tokens scanner.stream.ahead = scanner.pending ++ tokens ∧
      Laid (Text.indentation source) scanner.layout.widths tokens := by
  fun_induction stream scanner with
  | case1 scanner delivery hlast =>
    refine ⟨[], ?_, trivial⟩
    cases hpending : scanner.pending with
    | nil => rfl
    | cons token others =>
      have hdelivery : delivery = _ := congrArg Prod.fst (next_of_pending hpending)
      have hend := (hbreaks token (hpending ▸ List.mem_cons_self)).isEnd
      rw [hdelivery, show Delivery.isLast _ = token.isEnd from rfl, hend] at hlast
      cases hlast
  | case2 scanner delivery hlast stream ih =>
    show ∃ tokens, Delivery.tokens (delivery :: stream.ahead) = _ ∧ _
    rw [Delivery.tokens]
    cases hresult : delivery.result with
    | error fault =>
      refine ⟨[], ?_, trivial⟩
      cases hpending : scanner.pending with
      | nil => rfl
      | cons token others =>
        have hdelivery : delivery = _ := congrArg Prod.fst (next_of_pending hpending)
        rw [hdelivery] at hresult
        cases hresult
    | ok token =>
      have hend : token.isEnd = false := by
        simpa [Delivery.isLast, hresult] using hlast
      obtain ⟨hplaced, hlaid⟩ := scanner.goes_next.placed h hresult hend
      obtain ⟨tokens, htokens, hrest⟩ := ih hplaced (regular_next hbreaks).2
      obtain ⟨others, hothers, hall⟩ := hlaid tokens hrest
      refine ⟨others, ?_, hall⟩
      rw [← hothers]
      exact congrArg (token :: ·) htokens

end Scanner

end Offside
