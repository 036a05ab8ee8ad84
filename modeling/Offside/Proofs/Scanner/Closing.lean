import Offside.Proofs.Phrase.Closing
import Offside.Proofs.Scanner.Before
import Offside.Proofs.Scanner.Reads

/-!
# A text before a line without indentation

A text may end inside blocks. Where a line without indentation follows, its scanner delivers the
same tokens, and after them those that close the blocks (`Delivers.closing`). The depth of the open
blocks is what the tokens before lead to (`Delivers.leads`).
-/

namespace Offside

open Token (Shift Shifted Leads Nests)

/-! ## Line starts -/

namespace LineStart

variable {breaks width : Nat} {text : List Char}

theorem seek_add (breaks more width : Nat) (text : List Char) :
    seek (breaks + more) width text =
      { seek breaks width text with breaks := (seek breaks width text).breaks + more } := by
  fun_induction seek breaks width text with
  | case1 breaks width rest ih => rw [seek, ih]
  | case2 breaks width rest ih => rw [seek, Nat.add_right_comm, ih]
  | case3 breaks width rest hspace hnewline => rw [seek] <;> assumption

/-- Past a text of white space, the search goes on in the text after it. -/
theorem seek_blank (text : List Char) {blank : List Char}
    (h : (seek breaks width blank).rest = []) :
    seek breaks width (blank ++ '\n' :: text) =
      seek ((seek breaks width blank).breaks + 1) 0 text := by
  fun_induction seek breaks width blank with
  | case1 breaks width rest ih => rw [List.cons_append, seek, ih h]
  | case2 breaks width rest ih => rw [List.cons_append, seek, ih h]
  | case3 breaks width rest hspace hnewline =>
    rw [show rest = [] from h]
    rfl

/-- White space between a line break and a text is no matter for where the text begins. -/
theorem seek_newline (text : List Char) {blank : List Char} (h : (seek 1 0 blank).rest = []) :
    (seek 1 0 (blank ++ '\n' :: text)).rest = (seek 1 0 text).rest ∧
      (seek 1 0 (blank ++ '\n' :: text)).level = (seek 1 0 text).level := by
  rw [seek_blank text h, Nat.add_comm, seek_add]
  exact ⟨rfl, rfl⟩

end LineStart

/-! ## The depth of a layout -/

namespace Layout

variable {layout : Layout} {level : Nat}

/-- How many blocks are open. -/
def depth (layout : Layout) : Nat :=
  layout.widths.length - 1

/-- A line without indentation closes all blocks. -/
theorem breaks?_zero (hbottom : 0 ∈ layout.widths) (hdescends : layout.Descends) :
    layout.breaks? 0 = some (List.replicate layout.depth .outdent) ∧
      (layout.enter 0).widths = [0] := by
  have hwidth : (layout.enter 0).width = 0 := by
    have hhead := List.head?_dropWhile_not (fun width => decide (0 < width)) layout.widths
    rw [enter, if_neg (Nat.not_lt_zero _), width]
    cases hwidths : layout.widths.dropWhile (0 < ·) with
    | nil => rfl
    | cons inner outer =>
      rw [hwidths] at hhead
      simpa using hhead
  have hwidths := widths_of_width (descends_enter hdescends 0) (bottom_enter hbottom) hwidth
  refine ⟨?_, hwidths⟩
  rw [breaks?]
  cases hshift : layout.shift 0 with
  | stay =>
    have hsame := (enter_of_stay hshift hbottom).1
    rw [hwidths] at hsame
    rw [depth, ← hsame]
    rfl
  | deeper => exact absurd (enter_of_deeper hshift).2 (Nat.not_lt_zero _)
  | back closed =>
    have hlength := congrArg List.length (enter_of_back hshift hbottom)
    rw [hwidths, List.length_singleton, List.length_drop] at hlength
    dsimp only
    rw [if_pos hwidth, List.map_const', depth]
    congr 2
    omega

/-- A line that opens no block and closes none is as wide as the innermost one. -/
theorem width_of_breaks? (h : layout.breaks? level = some []) (hbottom : 0 ∈ layout.widths) :
    layout.width = level := by
  cases breaks_of_breaks? h hbottom with
  | stay hwidth => exact hwidth

/-- Each outdent token closes a block. -/
theorem leads_outdents (here : Scanner) (depth count : Nat) :
    Leads (depth + count) ((List.replicate count .outdent).map (here.mark · "")) depth := by
  induction count with
  | zero => exact .nil
  | succ count ih =>
    exact .cons ⟨(fun h => by cases h), fun _ => ⟨rfl, rfl⟩, fun _ hne => absurd rfl hne⟩ ih

theorem depth_of_same (h : (layout.enter level).widths = layout.widths) :
    (layout.enter level).depth = layout.depth := by
  rw [depth, depth, h]

theorem depth_of_cons {width : Nat} (hbottom : 0 ∈ layout.widths)
    (h : (layout.enter level).widths = width :: layout.widths) :
    (layout.enter level).depth = layout.depth + 1 := by
  have hpos := List.length_pos_of_mem hbottom
  rw [depth, depth, h, List.length_cons]
  omega

/-- As many blocks are closed as the layout has lost widths. -/
theorem depth_of_drop {count : Nat} (hbottom : 0 ∈ layout.widths)
    (h : (layout.enter level).widths = layout.widths.drop count) :
    layout.depth = (layout.enter level).depth + count := by
  have hlength := congrArg List.length h
  have hleft : 0 < (layout.enter level).widths.length :=
    List.length_pos_of_mem (bottom_enter hbottom)
  rw [List.length_drop] at hlength
  rw [depth, depth]
  omega

/-- The tokens of a line break lead from the depth before it to the depth after it. -/
theorem leads_breaks {kinds : List Token.Kind} (here : Scanner) (hbottom : 0 ∈ layout.widths)
    (h : layout.breaks? level = some kinds) :
    Leads layout.depth (kinds.map (here.mark · "")) (layout.enter level).depth := by
  cases breaks_of_breaks? h hbottom with
  | stay _ hwidths =>
    rw [depth_of_same hwidths]
    exact .nil
  | deeper _ hwidths =>
    rw [depth_of_cons hbottom hwidths]
    exact .cons ⟨fun _ => ⟨rfl, rfl⟩, (fun h => by cases h), fun hne => absurd rfl hne⟩ .nil
  | back count _ hwidths =>
    rw [depth_of_drop hbottom hwidths]
    exact leads_outdents here _ _

/-- The blocks that a line closes lead to the depth after it, be it of a width that is not allowed. -/
theorem leads_back {closed : List Nat} (here : Scanner) (hbottom : 0 ∈ layout.widths)
    (h : layout.shift level = .back closed) :
    Leads layout.depth ((closed.map fun _ => .outdent).map (here.mark · ""))
      (layout.enter level).depth := by
  rw [depth_of_drop hbottom (enter_of_back h hbottom), List.map_const']
  exact leads_outdents here _ _

end Layout

namespace Scanner

variable {scanner scanner' after : Scanner} {token last : Token} {tokens : List Token}
  {text : List Char} {depth : Nat}

/-! ## The depth of a scanner -/

theorem Step.bottom (h : scanner.Step token after) (hbottom : 0 ∈ scanner.layout.widths) :
    0 ∈ after.layout.widths := by
  obtain ⟨-, rfl⟩ := h.next_eq
  exact bottom_next hbottom

theorem Step.leads (h : scanner.Step token after) (hbottom : 0 ∈ scanner.layout.widths)
    (hleads : Leads depth scanner.pending scanner.layout.depth) :
    ∃ depth', token.Nests depth depth' ∧ Leads depth' after.pending after.layout.depth := by
  cases h with
  | release hpending =>
    rw [hpending] at hleads
    obtain _ | ⟨hnests, hleads⟩ := hleads
    exact ⟨_, hnests, hleads⟩
  | stop hpending => exact ⟨depth, ⟨nofun, nofun, fun _ _ => rfl⟩, hleads⟩
  | lineBreak hpending hrest hkinds =>
    rw [hpending] at hleads
    cases hleads
    exact ⟨_, ⟨nofun, nofun, fun _ _ => rfl⟩, Layout.leads_breaks _ hbottom hkinds⟩
  | @cut kind value rest hpending hcut =>
    rw [hpending] at hleads
    have hkind := Token.Kind.isSynthetic_of_cut? hcut
    refine ⟨depth, ⟨fun heq => ?_, fun heq => ?_, fun _ _ => rfl⟩, hleads⟩
    · rw [show kind = _ from heq] at hkind
      cases hkind
    · rw [show kind = _ from heq] at hkind
      cases hkind

/-- Tokens in a row, and those that wait after them, lead to the depth of the layout. -/
theorem Delivers.leads (h : Delivers scanner tokens after) (hbottom : 0 ∈ scanner.layout.widths)
    (hleads : Leads depth scanner.pending scanner.layout.depth) :
    ∃ depth', Leads depth tokens depth' ∧ Leads depth' after.pending after.layout.depth := by
  induction h generalizing depth with
  | refl => exact ⟨depth, .nil, hleads⟩
  | step hresult _ _ ih =>
    have hstep := step_next hresult
    obtain ⟨depth', hnests, hleads'⟩ := hstep.leads hbottom hleads
    obtain ⟨depth'', hrest, hafter⟩ := ih (hstep.bottom hbottom) hleads'
    exact ⟨depth'', .cons hnests hrest, hafter⟩

/-! ## The line that closes the blocks -/

/-- The tokens of a line break before a line without indentation. -/
def closingTokens (here : Scanner) (depth : Nat) : List Token :=
  here.mark .newline "\n" :: (List.replicate depth .outdent).map (here.mark · "")

theorem exists_closing (hpending : scanner.pending = [])
    (hrest : scanner.skipSpaces.rest = '\n' :: text)
    (hlevel : (LineStart.seek 1 0 text).level = 0) (hbottom : 0 ∈ scanner.layout.widths)
    (hdescends : scanner.layout.Descends) : ∃ here final : Scanner,
      scanner.Delivers (here.closingTokens scanner.layout.depth) final ∧
        final.At [0] (LineStart.seek 1 0 text).rest := by
  obtain ⟨hkinds, hwidths⟩ := Layout.breaks?_zero hbottom hdescends
  rw [← hlevel] at hkinds
  have hstep := Step.lineBreak hpending hrest hkinds
  obtain ⟨hresult, hafter⟩ := hstep.next_eq
  have hbreaks : scanner.PendingBreaks := by simp [PendingBreaks, hpending]
  have hdelivers := Delivers.step hresult rfl (delivers_pending (regular_next hbreaks).2)
  rw [hafter] at hdelivers
  refine ⟨_, _, hdelivers, rfl, ?_, rfl⟩
  show (scanner.layout.enter (LineStart.seek 1 0 text).level).widths = [0]
  rw [hlevel, hwidths]

/-- Tokens that close blocks, at the end of a text or before more of it. -/
theorem shifted_closingTokens (file : String) (here here' : Scanner) (depth : Nat)
    (more : List Token) : Shifted (.closing file more) depth (here.closingTokens depth)
      (here'.closingTokens depth ++ more) := by
  have houtdents : ∀ depth, Shifted (.closing file more) depth
      ((List.replicate depth .outdent).map (here.mark · ""))
      ((List.replicate depth .outdent).map (here'.mark · "") ++ more) := by
    intro depth
    induction depth with
    | zero => exact .nil ⟨[], [], rfl, by simp, by simp, rfl⟩
    | succ depth ih =>
      exact .cons _ ⟨nofun, fun _ => ⟨rfl, rfl⟩, fun _ hne => absurd rfl hne⟩ nofun ih
  exact .cons _ ⟨nofun, nofun, fun _ _ => rfl⟩ nofun (houtdents depth)

/-- The end of the text is where the blocks are closed. -/
theorem ends_closingTokens (file : String) (here : Scanner) (depth : Nat) (more : List Token) :
    (Shift.closing file more).ends depth (here.closingTokens depth ++ more) := by
  refine ⟨[here.mark .newline "\n"], (List.replicate depth .outdent).map (here.mark · ""), rfl,
    ?_, ?_, by simp⟩
  · exact List.forall_mem_singleton.2 ⟨.inl ⟨rfl, rfl⟩, rfl⟩
  · intro token htoken
    obtain ⟨kind, hkind, rfl⟩ := List.mem_map.1 htoken
    rw [List.eq_of_mem_replicate hkind]
    exact ⟨.inr ⟨.inr rfl, rfl⟩, rfl⟩

/-- A scanner has only one way to the end of its text. -/
theorem Delivers.unique {tokens' : List Token} {after' : Scanner} {last' : Token}
    (h : Delivers scanner tokens after) (hends : after.Ends last)
    (h' : Delivers scanner tokens' after') (hends' : after'.Ends last') : tokens = tokens' := by
  have hstream := tokens_stream_eq_ok_iff.2 ⟨after, h, hends⟩
  rw [tokens_stream_eq_ok_iff.2 ⟨after', h', hends'⟩] at hstream
  exact (List.append_inj' (Except.ok.inj hstream) rfl).1.symm

/-- With a line without indentation after its text, a scanner delivers the same tokens and those
that close the blocks, and reaches that line. -/
theorem Delivers.closing {source : String} (file : String) (h : Delivers scanner tokens after)
    (hends : after.Ends last) (hbefore : Before ('\n' :: text) scanner scanner')
    (hline : scanner.line = scanner'.line) (hplaced : scanner.Placed source)
    (hdescends : scanner.layout.Descends) (hpending : scanner.pending = [])
    (hlevel : (LineStart.seek 1 0 text).level = 0) : ∃ tokens' final,
      Delivers scanner' tokens' final ∧ final.At [0] (LineStart.seek 1 0 text).rest ∧
        ∀ more, Shifted (.closing file more) scanner.layout.depth tokens (tokens' ++ more) := by
  have hbreaks : scanner.PendingBreaks := by simp [PendingBreaks, hpending]
  obtain ⟨early, late, middle, early', middle', rfl, hearly, hlate, hearly', hmiddle, hshifted,
    hlast⟩ := h.upToLastBreak file file id id (Text.separated_newline text) hbefore hbreaks
      (fun _ _ breaks h => Shift.lines_id_iff.2 (congrArg (· + breaks) (Shift.lines_id_iff.1 h)))
      (Shift.lines_id_iff.2 hline)
  have hnone : Leads scanner.layout.depth scanner.pending scanner.layout.depth := by
    rw [hpending]
    exact .nil
  obtain ⟨depth, hleads, hwaiting⟩ := hearly.leads hplaced.bottom hnone
  have hbottom := (hearly.laid hplaced).1.bottom
  have hdescends' := hearly.descends hdescends
  obtain rfl | ⟨-, blank, hblank⟩ := hlast
  -- The text ends on a line with other text: what follows is the end of that line.
  · cases hlate
    obtain ⟨hnone, hspaces⟩ := hends.spaces (hearly.pendingBreaks hbreaks)
    have hskip : middle'.skipSpaces.rest = '\n' :: text := by
      show middle'.rest.dropWhile (· == ' ') = _
      rw [hmiddle.rest, List.dropWhile_append, hspaces]
      rfl
    rw [← hmiddle.layout] at hbottom hdescends'
    obtain ⟨here, final, hclosing, hat⟩ :=
      exists_closing (hmiddle.pending_nil hnone) hskip hlevel hbottom hdescends'
    rw [hnone] at hwaiting
    cases hwaiting
    refine ⟨_, final, hearly'.trans hclosing, hat, fun more => ?_⟩
    rw [List.append_assoc]
    refine hshifted.closing hleads (.nil ?_)
    rw [hmiddle.layout]
    exact ends_closingTokens file here _ more
  -- The text ends in white space: its last line break closes the blocks in both texts.
  · have hskip : middle'.skipSpaces.rest = '\n' :: (blank ++ '\n' :: text) := by
      rw [hmiddle.rest_skipSpaces (by simp [hblank.rest]), hblank.rest]
      rfl
    obtain ⟨hseek, hlevel'⟩ := LineStart.seek_newline text hblank.blank
    have hempty : (LineStart.seek 1 0 blank).level = 0 := by
      rw [LineStart.level, hblank.blank]
      rfl
    obtain ⟨here, final, hclosing, hat⟩ :=
      exists_closing hblank.pending hblank.rest hempty hbottom hdescends'
    rw [hblank.blank] at hat
    obtain rfl := hlate.unique hends hclosing (hat.ends rfl)
    rw [← hmiddle.layout] at hbottom hdescends'
    obtain ⟨here', final', hclosing', hat'⟩ := exists_closing (hmiddle.pending_nil hblank.pending)
      hskip (hlevel'.trans hlevel) hbottom hdescends'
    rw [hblank.pending] at hwaiting
    cases hwaiting
    refine ⟨_, final', hearly'.trans hclosing', hseek ▸ hat', fun more => ?_⟩
    rw [List.append_assoc, hmiddle.layout]
    exact hshifted.closing hleads (shifted_closingTokens file here here' _ more)

end Scanner

end Offside
