import Mathlib.Order.Monotone.Basic
import Offside.Proofs.Calls
import Offside.Proofs.Spellings
import Offside.Proofs.Text.Reindented

/-!
# Only the order of widths matters

A block opens where a line is wider than the one before it, and closes where a line is narrower. So a
strictly monotone change of all widths, with 0 for 0, leaves the blocks of a text as they are
(`Layout.breaks?_map`), and with them its tokens: `Passes.reads_reindented` reads those of a passage
from the reindented text. A text with a fault keeps a fault of the same kind on the same line
(`parse_reindented`).
-/

namespace Offside

open Scanner (Passes Reads)
open Text (lineAfter columnAfter levelAfter Blank EndsLine Separated Solid reindent reindented)

/-! ## Layouts -/

namespace Layout

/-- The layout with other widths. -/
def map (f : Nat → Nat) (layout : Layout) : Layout :=
  ⟨layout.widths.map f⟩

variable {f : Nat → Nat} {layout : Layout} {level : Nat}

theorem width_map (hzero : f 0 = 0) : (layout.map f).width = f layout.width := by
  rw [width, width, map]
  cases layout.widths with
  | nil => exact hzero.symm
  | cons width widths => rfl

theorem takeWhile_map (hf : StrictMono f) (widths : List Nat) :
    (widths.map f).takeWhile (f level < ·) = (widths.takeWhile (level < ·)).map f := by
  rw [List.takeWhile_map]
  simp only [Function.comp_def, hf.lt_iff_lt]

theorem enter_map (hf : StrictMono f) (hzero : f 0 = 0) :
    (layout.map f).enter (f level) = (layout.enter level).map f := by
  rw [enter, enter, width_map hzero]
  simp only [hf.lt_iff_lt]
  split
  · rfl
  · rw [map, map, List.dropWhile_map]
    simp only [Function.comp_def, hf.lt_iff_lt]

/-- The blocks open and close as before. -/
theorem breaks?_map (hf : StrictMono f) (hzero : f 0 = 0) :
    (layout.map f).breaks? (f level) = layout.breaks? level := by
  rw [breaks?, breaks?, shift, shift, enter_map hf hzero, width_map hzero, width_map hzero]
  simp only [hf.lt_iff_lt, hf.injective.eq_iff, map, takeWhile_map hf]
  by_cases hdeeper : layout.width < level
  · simp only [if_pos hdeeper]
  by_cases hback : level < layout.width
  · simp only [if_neg hdeeper, if_pos hback, List.map_const', List.length_take, List.length_map,
      List.length_tail]
  · simp only [if_neg hdeeper, if_neg hback]

end Layout

/-! ## Words -/

section Words

variable {f : Nat → Nat} {text rest others : List Char} {c : Char} {kind : Token.Kind}
  {value : String}

/-- The token ahead ends where it did. -/
theorem Token.cut?_reindent (h : cut? text = some (kind, value, rest)) :
    cut? (value.toList ++ reindent f rest) = some (kind, value, reindent f rest) := by
  obtain ⟨line, behind, rfl, hline, hbehind⟩ := Text.exists_line rest
  have hexchanges : Scanner.Exchanges [] behind (reindent f behind) :=
    .separated hbehind.separated hbehind.reindent.separated nofun
  rw [Text.reindent_line hline hbehind]
  rw [eq_append_of_cut? h] at h
  exact hexchanges.cut? h

/-- No pattern accepts the text where none did. -/
theorem Token.cut?_reindent_eq_none (h : cut? (c :: others) = none) :
    cut? (c :: reindent f others) = none := by
  cases hcut : cut? (c :: reindent f others) with
  | none => rfl
  | some found =>
    obtain ⟨kind, value, rest⟩ := found
    obtain ⟨line, behind, rfl, hline, hbehind⟩ := Text.exists_line others
    rw [Text.reindent_line hline hbehind] at hcut
    have htext : value.toList ++ rest = (c :: line) ++ reindent f behind :=
      (eq_append_of_cut? hcut).symm
    obtain ⟨front, hfront, rfl⟩ :=
      hbehind.reindent.exists_append (newline_not_mem_of_cut? hcut) htext
    have hexchanges : Scanner.Exchanges [] (reindent f behind) behind :=
      .separated hbehind.reindent.separated hbehind.separated nofun
    rw [eq_append_of_cut? hcut] at hcut
    have hagain := hexchanges.cut? hcut
    rw [← List.append_assoc, ← hfront, List.cons_append, h] at hagain
    cases hagain

end Words

/-- Two causes of the same kind. Widths are changed by `f`. -/
inductive Fault.Cause.Reindented (f : Nat → Nat) : Cause → Cause → Prop
  | unrecognised {text text' : String} : Reindented f (.unrecognised text) (.unrecognised text')
  | inconsistentIndentation {width : Nat} :
    Reindented f (.inconsistentIndentation width) (.inconsistentIndentation (f width))

namespace Scanner

variable {f : Nat → Nat} {source : String} {scanner scanner' after : Scanner} {tokens : List Token}
  {fault : Fault}

/-! ## Passages -/

theorem Passes.reads_reindented (hf : StrictMono f) (hzero : f 0 = 0)
    (h : Passes scanner tokens after) :
    Reads (scanner.layout.map f).widths (reindent f scanner.rest)
      (tokens.map fun token => .bare token.kind token.value) (after.layout.map f).widths
      (reindent f after.rest) := by
  induction h with
  | refl => exact .refl
  | @cut scanner after kind value rest tokens hcut _ ih =>
    have htext : reindent f scanner.rest = scanner.spaces ++ (value.toList ++ reindent f rest) := by
      rw [← spaces_append, Token.eq_append_of_cut? hcut,
        Text.reindent_append scanner.newline_not_mem_spaces,
        Text.reindent_append (Token.newline_not_mem_of_cut? hcut)]
    have hfirst : Reads (scanner.layout.map f).widths _ _ _ (reindent f rest) :=
      Reads.cut (Token.cut?_reindent hcut)
    rw [htext]
    exact (hfirst.trans ih).spaces (List.cons_ne_nil _ _) scanner.dropWhile_spaces
  | @lineBreak scanner after rest kinds tokens hnewline hkinds hpasses ih =>
    obtain ⟨gap, hgap, hblank, hbreak, hsolid, hlevel⟩ := exists_gap_afterBreak hnewline
    obtain ⟨gap', hblank', hbreak', htext, hlevel'⟩ :=
      Text.exists_reindent_gap hzero hblank hbreak hsolid
    rw [hlevel, ← Layout.breaks?_map hf hzero, ← hlevel'] at hkinds
    have hfirst : Reads (scanner.layout.map f).widths _ _ ((scanner.layout.map f).enter _).widths _ :=
      Reads.breaks hblank' hbreak' hsolid.reindent hkinds
    rw [hlevel', ← hlevel, Layout.enter_map hf hzero] at hfirst
    rw [hgap, htext, breakTokens, List.cons_append, List.map_cons, List.map_append, List.map_map]
    exact hfirst.trans ih

/-! ## Faults -/

theorem Delivers.located (h : Delivers scanner tokens after)
    (hlocated : ∃ before, scanner.Located source before) : ∃ before, after.Located source before := by
  induction h with
  | refl => exact hlocated
  | step hresult _ _ ih =>
    obtain ⟨before, hlocated⟩ := hlocated
    exact ih ((step_next hresult).located hlocated)

/-- Text that no pattern accepts is a fault. -/
theorem next_of_cut?_eq_none {c : Char} {others : List Char} (hpending : scanner.pending = [])
    (hskip : scanner.skipSpaces.rest = c :: others) (hc : c ≠ '\n')
    (hcut : Token.cut? (c :: others) = none) : ∃ text, scanner.next.1.result =
      .error (scanner.skipSpaces.fault (.unrecognised text) scanner.skipSpaces.column) := by
  rw [(Goes.unrecognised hpending hskip hc hcut).next_eq]
  exact ⟨_, rfl⟩

/-- The scanners stand at the same place of a text and of the reindented one, no tokens waiting on
either. -/
structure Tracks (f : Nat → Nat) (source : String) (scanner scanner' : Scanner) : Prop where
  pending : scanner.pending = []
  located : ∃ before, scanner.Located source before
  at' : scanner'.At (scanner.layout.map f).widths (reindent f scanner.rest)
  located' : ∃ before, scanner'.Located (reindented f source) before

/-- The lines of the reindented text end where they did. -/
theorem lineAfter_reindent {before before' rest : List Char} (h : source.toList = before ++ rest)
    (h' : (reindented f source).toList = before' ++ reindent f rest) :
    lineAfter before' = lineAfter before := by
  have hcount := Text.count_reindent (f := f) source.toList
  rw [reindented, String.toList_ofList] at h'
  rw [h', h, List.count_append, List.count_append, Text.count_reindent] at hcount
  rw [lineAfter, lineAfter]
  omega

theorem Tracks.exists_fault_of_gap {gap text : List Char} (h : Tracks f source scanner scanner')
    (hf : StrictMono f) (hzero : f 0 = 0) (hrest : scanner.rest = gap ++ text)
    (hblank : Blank gap) (hbreak : '\n' ∈ gap) (hsolid : Solid text)
    (hfault : scanner.next.1.result = .error fault) :
    ∃ fault', scanner'.next.1.result = .error fault' ∧ fault.cause.Reindented f fault'.cause ∧
      fault'.span.line = fault.span.line := by
  obtain ⟨before, hlocated⟩ := h.located
  obtain ⟨before', hlocated'⟩ := h.located'
  obtain ⟨gap', hblank', hbreak', htext', hlevel⟩ :=
    Text.exists_reindent_gap hzero hblank hbreak hsolid
  have hrest' : scanner'.rest = gap' ++ reindent f text := by rw [h.at'.rest, hrest, htext']
  have hlayout : scanner'.layout = scanner.layout.map f := congrArg Layout.mk h.at'.widths
  have hsource : source.toList = before ++ gap ++ text := by
    rw [hlocated.text, hrest, List.append_assoc]
  have hsource' : (reindented f source).toList = before' ++ gap' ++ reindent f text := by
    rw [hlocated'.text, hrest', List.append_assoc]
  obtain ⟨hresult, hnone⟩ | ⟨⟨token, hresult, -⟩, -⟩ :=
    next_gap h.pending hlocated hrest hblank hbreak hsolid
  · rw [hresult] at hfault
    cases hfault
    rw [← Layout.breaks?_map hf hzero, ← hlevel, ← hlayout] at hnone
    obtain ⟨hresult', -⟩ | ⟨-, hsome, -⟩ :=
      next_gap h.at'.pending hlocated' hrest' hblank' hbreak' hsolid.reindent
    · refine ⟨_, hresult', ?_, lineAfter_reindent hsource hsource'⟩
      rw [hlevel]
      exact .inconsistentIndentation
    · exact absurd hnone hsome
  · rw [hresult] at hfault
    cases hfault

theorem Tracks.exists_fault_of_text {text : String} (h : Tracks f source scanner scanner')
    (hfault : scanner.next.1.result = .error fault) (hcause : fault.cause = .unrecognised text) :
    ∃ fault', scanner'.next.1.result = .error fault' ∧ fault.cause.Reindented f fault'.cause ∧
      fault'.span.line = fault.span.line := by
  obtain ⟨before, hlocated⟩ := h.located
  obtain ⟨before', hlocated'⟩ := h.located'
  obtain ⟨hcut, ⟨c, others, hskip, hspace, hbreak⟩, -, hline, -⟩ := (goes_next _).cut_eq_none hfault hcause
  rw [hskip] at hcut
  have hspace' : (c == ' ') = false := beq_eq_false_iff_ne.2 hspace
  have hskip' : scanner'.skipSpaces.rest = c :: reindent f others := by
    show scanner'.rest.dropWhile (· == ' ') = _
    rw [h.at'.rest, ← spaces_append, hskip, Text.reindent_append scanner.newline_not_mem_spaces,
      Text.reindent_cons hbreak, List.dropWhile_append, dropWhile_spaces]
    simp [hspace']
  obtain ⟨text', hresult'⟩ :=
    next_of_cut?_eq_none h.at'.pending hskip' hbreak (Token.cut?_reindent_eq_none hcut)
  refine ⟨_, hresult', ?_, ?_⟩
  · rw [hcause]
    exact .unrecognised
  · rw [hline, hlocated.line, ← lineAfter_reindent hlocated.text (h.at'.rest ▸ hlocated'.text),
      ← hlocated'.line]
    rfl

/-- A fault is kept, on its line. -/
theorem Tracks.exists_fault (h : Tracks f source scanner scanner') (hf : StrictMono f) (hzero : f 0 = 0)
    (hfault : scanner.next.1.result = .error fault) :
    ∃ fault', scanner'.next.1.result = .error fault' ∧ fault.cause.Reindented f fault'.cause ∧
      fault'.span.line = fault.span.line := by
  have htrip := trip_next hfault
  generalize scanner.next.2 = tripped at htrip
  cases htrip with
  | indentation _ hrest =>
    obtain ⟨gap, hgap, hblank, hbreak, hsolid, -⟩ := exists_gap_afterBreak hrest
    exact h.exists_fault_of_gap hf hzero hgap hblank hbreak hsolid hfault
  | unrecognised => exact h.exists_fault_of_text hfault rfl

end Scanner

variable {f : Nat → Nat} {source : String} {file : Option String} {stream : List Token} {fault : Fault}

theorem reads_ofText (hf : StrictMono f) (hzero : f 0 = 0) {tokens : List Token} {after : Scanner}
    (hpasses : Passes (.ofText source file) tokens after) :
    Reads [0] (reindented f source).toList (tokens.map fun token => .bare token.kind token.value)
      (after.layout.map f).widths (reindent f after.rest) := by
  have hreads := hpasses.reads_reindented hf hzero
  have hwidths : ((Scanner.ofText source file).layout.map f).widths = [0] :=
    congrArg (fun width => [width]) hzero
  rw [hwidths] at hreads
  rw [reindented, String.toList_ofList]
  exact hreads

/-- A text without faults has its tokens in all its indentations. -/
theorem exists_tokenize_reindented (hf : StrictMono f) (hzero : f 0 = 0)
    (h : (tokenize source file).result = .ok stream) (file' : Option String) :
    ∃ stream', (tokenize (reindented f source) file').result = .ok stream' ∧
      stream'.map Token.spelling = stream.map Token.spelling := by
  obtain ⟨tokens, after, hpasses, hend, rfl⟩ := Scanner.exists_passes_of_tokenize h
  have hspaces : after.rest = after.spaces := by
    rw [← after.spaces_append, hend, List.append_nil]
  have hbehind : (reindent f after.rest).dropWhile (· == ' ') = [] := by
    rw [hspaces, Text.reindent_eq_self after.newline_not_mem_spaces]
    exact after.dropWhile_spaces
  exact exists_spelled_of_reads h (reads_ofText hf hzero hpasses) hbehind file'

/-- A text with a fault has one of the same kind in all its indentations. -/
theorem exists_fault_reindented (hf : StrictMono f) (hzero : f 0 = 0)
    (h : (tokenize source file).result = .error fault) (file' : Option String) :
    ∃ fault', (tokenize (reindented f source) file').result = .error fault' ∧
      fault.cause.Reindented f fault'.cause ∧ fault'.span.line = fault.span.line := by
  obtain ⟨after, hdelivers, hfault⟩ := Scanner.exists_delivers_of_error h
  have hpending := (Scanner.goes_next _).pending_of_error hfault
  obtain ⟨tokens, -, hpasses⟩ := hdelivers.passes hpending
  have hat : (Scanner.ofText (reindented f source) file').At [0] (reindented f source).toList :=
    ⟨rfl, rfl, rfl⟩
  obtain ⟨found, after', hdelivers', hat', -⟩ := reads_ofText hf hzero hpasses _ hat
  have htracks : Scanner.Tracks f source after after' := {
    pending := hpending
    located := hdelivers.located ⟨[], Scanner.located_ofText source file⟩
    at' := hat'
    located' := hdelivers'.located ⟨[], Scanner.located_ofText (reindented f source) file'⟩ }
  obtain ⟨fault', hfault', hcause, hline⟩ := htracks.exists_fault hf hzero hfault
  exact ⟨fault', hdelivers'.tokens_of_error hfault', hcause, hline⟩

/-- Only the order of the widths of lines matters. A text whose lines are indented anew has the same
tokens and is parsed alike, or it has a fault of the same kind on the same line. -/
theorem parse_reindented (hf : StrictMono f) (hzero : f 0 = 0) (source : String)
    (file file' : Option String) :
    match (tokenize source file).result with
    | .ok stream => ∃ stream', (tokenize (reindented f source) file').result = .ok stream' ∧
        stream'.map Token.spelling = stream.map Token.spelling ∧
          ParsedAlike (parse source file).result (parse (reindented f source) file').result
    | .error fault => ∃ fault', (tokenize (reindented f source) file').result = .error fault' ∧
        fault.cause.Reindented f fault'.cause ∧ fault'.span.line = fault.span.line := by
  cases h : (tokenize source file).result with
  | ok stream =>
    obtain ⟨stream', h', hspelling⟩ := exists_tokenize_reindented hf hzero h file'
    exact ⟨stream', h', hspelling, parse_spelled h h' hspelling⟩
  | error fault => exact exists_fault_reindented hf hzero h file'

theorem parse_reindented_triple :
    let source := "if a\n  if b\n    c\n \n  d\ne"
    let source' := "if a\n      if b\n            c\n \n      d\ne"
    (∃ stream stream', (tokenize source none).result = .ok stream ∧
      (tokenize source' none).result = .ok stream' ∧
        stream'.map Token.spelling = stream.map Token.spelling ∧
          ParsedAlike (parse source none).result (parse source' none).result) ∧
    ∃ fault fault', (tokenize "a\n  b\n c" none).result = .error fault ∧
      (tokenize "a\n      b\n   c" none).result = .error fault' ∧
        fault.cause.Reindented (3 * ·) fault'.cause ∧ fault'.span.line = fault.span.line := by
  intro source source'
  have hf : StrictMono (3 * ·) := fun width width' h => Nat.mul_lt_mul_of_pos_left h (by decide)
  constructor
  · have hsource : reindented (3 * ·) source = source' := by decide +kernel
    have h := parse_reindented hf rfl source none none
    rw [hsource] at h
    obtain ⟨stream, hstream⟩ := exists_of_isOk
      (by decide +kernel : (tokenize source none).result.isOk = true)
    rw [hstream] at h
    obtain ⟨stream', h'⟩ := h
    exact ⟨stream, stream', hstream, h'⟩
  · have hsource : reindented (3 * ·) "a\n  b\n c" = "a\n      b\n   c" := by decide +kernel
    have h := parse_reindented hf rfl "a\n  b\n c" none none
    rw [hsource] at h
    have hfault : (tokenize "a\n  b\n c" none).result.isOk = false := by decide +kernel
    cases hresult : (tokenize "a\n  b\n c" none).result with
    | ok stream =>
      rw [hresult] at hfault
      cases hfault
    | error fault =>
      rw [hresult] at h
      obtain ⟨fault', h'⟩ := h
      exact ⟨fault, fault', rfl, h'⟩

end Offside
