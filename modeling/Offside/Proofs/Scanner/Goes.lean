import Offside.Scanner.Basic

/-!
# What a scanner does next

`Scanner.Goes` lists all that a scanner can do next: deliver a token that waits, the end token, the
newline token of a line break or a token cut off the text, or a fault in the indentation or in the
text ahead. It does one of these (`Scanner.goes_next`) and nothing else (`Scanner.goes_iff`). So a fact
about deliveries is an argument by six cases, in which `Scanner.next` is not opened again.
-/

namespace Offside

namespace Layout

/-- The classes of the tokens by which a line of the given width shifts a layout, after its newline
token. There are none where the width is not one of the layout. -/
def breaks? (layout : Layout) (width : Nat) : Option (List Token.Kind) :=
  match layout.shift width with
  | .stay => some []
  | .deeper => some [.indent]
  | .back widths =>
    if (layout.enter width).width = width then some (widths.map fun _ => .outdent) else none

theorem isShift_of_breaks? {layout : Layout} {level : Nat} {kinds : List Token.Kind}
    (h : layout.breaks? level = some kinds) : ∀ kind ∈ kinds, kind = .indent ∨ kind = .outdent := by
  rw [breaks?] at h
  split at h
  · cases h
    simp
  · cases h
    simp
  · split at h
    · cases h
      simp
    · cases h

theorem exists_back_of_breaks? {layout : Layout} {level : Nat} (h : layout.breaks? level = none) :
    ∃ closed, layout.shift level = .back closed ∧ (layout.enter level).width ≠ level := by
  rw [breaks?] at h
  split at h
  · cases h
  · cases h
  · split at h
    · cases h
    · exact ⟨_, ‹_›, ‹_›⟩

/-- What a line of the given width says about the blocks that it opens or closes. -/
def breakEvents (layout : Layout) (line width : Nat) : List Event :=
  match layout.shift width with
  | .stay => []
  | .deeper => [.blockOpened line layout.width width]
  | .back widths => widths.map (.blockClosed line)

end Layout

namespace Scanner

/-- The delivery of the scanner, and the scanner after it. -/
inductive Goes (scanner : Scanner) : Delivery → Scanner → Prop
  | release {token : Token} {others : List Token} (hpending : scanner.pending = token :: others) :
    Goes scanner ⟨.ok token, [.tokenEmitted token]⟩ { scanner with pending := others }
  | stop (hpending : scanner.pending = []) (hrest : scanner.skipSpaces.rest = []) :
    Goes scanner ⟨.ok scanner.skipSpaces.endToken, []⟩ scanner.skipSpaces
  | lineBreak {rest : List Char} {line : Scanner} {level : Nat} {kinds : List Token.Kind}
    (hpending : scanner.pending = []) (hrest : scanner.skipSpaces.rest = '\n' :: rest)
    (hline : line = scanner.skipSpaces.enterLine (LineStart.seek 1 0 rest))
    (hlevel : level = (LineStart.seek 1 0 rest).level)
    (hkinds : scanner.layout.breaks? level = some kinds) :
    Goes scanner
      ⟨.ok (line.mark .newline "\n"),
        scanner.layout.breakEvents line.line level ++ [.tokenEmitted (line.mark .newline "\n")]⟩
      { line with pending := kinds.map (line.mark · "") }
  | indentation {rest : List Char} {line : Scanner} {level : Nat} {closed : List Nat}
    (hpending : scanner.pending = []) (hrest : scanner.skipSpaces.rest = '\n' :: rest)
    (hline : line = scanner.skipSpaces.enterLine (LineStart.seek 1 0 rest))
    (hlevel : level = (LineStart.seek 1 0 rest).level)
    (hback : scanner.layout.shift level = .back closed)
    (hkinds : scanner.layout.breaks? level = none) :
    Goes scanner
      ⟨.error (line.fault (.inconsistentIndentation level) level),
        scanner.layout.breakEvents line.line level⟩
      { line with pending :=
          line.mark .newline "\n" :: closed.map fun _ => line.mark .outdent "" }
  | cut {kind : Token.Kind} {value : String} {rest : List Char} {token : Token}
    (hpending : scanner.pending = [])
    (hcut : Token.cut? scanner.skipSpaces.rest = some (kind, value, rest))
    (htoken : token = { kind, value, line := scanner.line, column := scanner.skipSpaces.column }) :
    Goes scanner ⟨.ok token, [.tokenEmitted token]⟩
      { scanner.skipSpaces with
        rest, column := scanner.skipSpaces.column + value.length, pending := [] }
  | unrecognised {c : Char} {others : List Char} (hpending : scanner.pending = [])
    (hrest : scanner.skipSpaces.rest = c :: others) (hnewline : c ≠ '\n')
    (hcut : Token.cut? (c :: others) = none) :
    Goes scanner
      ⟨.error (scanner.skipSpaces.fault (.unrecognised (String.ofList ((c :: others).take 6)))
        scanner.skipSpaces.column), []⟩
      scanner.skipSpaces

variable {scanner after : Scanner} {delivery : Delivery} {rest : List Char}

/-! ## Line breaks -/

theorem breakLine_of_some {line : Scanner} {level : Nat} {kinds : List Token.Kind}
    (hline : line = scanner.enterLine (LineStart.seek 1 0 rest))
    (hlevel : level = (LineStart.seek 1 0 rest).level)
    (hkinds : scanner.layout.breaks? level = some kinds) :
    scanner.breakLine rest =
      (⟨.ok (line.mark .newline "\n"),
        scanner.layout.breakEvents line.line level ++ [.tokenEmitted (line.mark .newline "\n")]⟩,
        { line with pending := kinds.map (line.mark · "") }) := by
  subst hline hlevel
  simp only [breakLine, release, Layout.breaks?, Layout.breakEvents] at hkinds ⊢
  generalize LineStart.seek 1 0 rest = start at hkinds ⊢
  cases hshift : scanner.layout.shift start.level with
  | stay =>
    rw [hshift] at hkinds
    cases hkinds
    rfl
  | deeper =>
    rw [hshift] at hkinds
    cases hkinds
    rfl
  | back closed =>
    rw [hshift] at hkinds
    obtain ⟨hwidth, rfl⟩ := Option.ite_some_none_eq_some.1 hkinds
    refine (if_pos hwidth).trans ?_
    rw [List.map_map]
    rfl

theorem breakLine_of_none {line : Scanner} {level : Nat} {closed : List Nat}
    (hline : line = scanner.enterLine (LineStart.seek 1 0 rest))
    (hlevel : level = (LineStart.seek 1 0 rest).level)
    (hback : scanner.layout.shift level = .back closed)
    (hwidth : (scanner.layout.enter level).width ≠ level) :
    scanner.breakLine rest =
      (⟨.error (line.fault (.inconsistentIndentation level) level),
        scanner.layout.breakEvents line.line level⟩,
        { line with pending :=
            line.mark .newline "\n" :: closed.map fun _ => line.mark .outdent "" }) := by
  subst hline hlevel
  simp only [breakLine, Layout.breakEvents]
  rw [hback]
  exact if_neg hwidth

/-! ## The next delivery -/

theorem next_of_pending {token : Token} {others : List Token}
    (hpending : scanner.pending = token :: others) :
    scanner.next = (⟨.ok token, [.tokenEmitted token]⟩, { scanner with pending := others }) := by
  rw [next, hpending]
  rfl

theorem next_of_end (hpending : scanner.pending = []) (hrest : scanner.skipSpaces.rest = []) :
    scanner.next = (⟨.ok scanner.skipSpaces.endToken, []⟩, scanner.skipSpaces) := by
  rw [next, hpending]
  dsimp only
  rw [hrest]

theorem next_of_newline (hpending : scanner.pending = [])
    (hrest : scanner.skipSpaces.rest = '\n' :: rest) :
    scanner.next = scanner.skipSpaces.breakLine rest := by
  rw [next, hpending]
  dsimp only
  rw [hrest]
  rfl

theorem next_of_text {c : Char} (hpending : scanner.pending = [])
    (hrest : scanner.skipSpaces.rest = c :: rest) (hc : c ≠ '\n') :
    scanner.next = scanner.skipSpaces.cutToken := by
  rw [next, hpending]
  dsimp only
  rw [hrest]
  split
  · rename_i hnil
    cases hnil
  · rename_i hnewline
    exact absurd (List.cons.inj hnewline).1 hc
  · rfl

/-- The place before the spaces ahead is no matter where no token waits. -/
theorem next_congr {scanner' : Scanner} (hskip : scanner.skipSpaces = scanner'.skipSpaces)
    (hpending : scanner.pending = []) (hpending' : scanner'.pending = []) :
    scanner.next = scanner'.next := by
  rw [next, next, hpending, hpending', hskip]

theorem Goes.next_eq (h : scanner.Goes delivery after) : scanner.next = (delivery, after) := by
  cases h with
  | release hpending => exact next_of_pending hpending
  | stop hpending hrest => exact next_of_end hpending hrest
  | lineBreak hpending hrest hline hlevel hkinds =>
    exact (next_of_newline hpending hrest).trans (breakLine_of_some hline hlevel hkinds)
  | indentation hpending hrest hline hlevel hback hkinds =>
    obtain ⟨closed, hback', hwidth⟩ := Layout.exists_back_of_breaks? hkinds
    exact (next_of_newline hpending hrest).trans (breakLine_of_none hline hlevel hback hwidth)
  | cut hpending hcut htoken =>
    cases hrest : scanner.skipSpaces.rest with
    | nil =>
      rw [hrest] at hcut
      cases hcut
    | cons c others =>
      have hc : c ≠ '\n' := by
        rintro rfl
        rw [hrest] at hcut
        cases hcut
      rw [next_of_text hpending hrest hc, cutToken, hcut, htoken]
      rfl
  | unrecognised hpending hrest hc hcut =>
    rw [next_of_text hpending hrest hc, cutToken, hrest, hcut]

theorem goes_next (scanner : Scanner) : scanner.Goes scanner.next.1 scanner.next.2 := by
  cases hpending : scanner.pending with
  | cons token others =>
    rw [next_of_pending hpending]
    exact .release hpending
  | nil =>
    cases hrest : scanner.skipSpaces.rest with
    | nil =>
      rw [next_of_end hpending hrest]
      exact .stop hpending hrest
    | cons c rest =>
      by_cases hc : c = '\n'
      · subst hc
        rw [next_of_newline hpending hrest]
        cases hkinds : scanner.layout.breaks? (LineStart.seek 1 0 rest).level with
        | some kinds =>
          have hbreak : scanner.skipSpaces.breakLine rest = _ := breakLine_of_some rfl rfl hkinds
          rw [hbreak]
          exact .lineBreak hpending hrest rfl rfl hkinds
        | none =>
          obtain ⟨closed, hback, hwidth⟩ := Layout.exists_back_of_breaks? hkinds
          have hbreak : scanner.skipSpaces.breakLine rest = _ :=
            breakLine_of_none rfl rfl hback hwidth
          rw [hbreak]
          exact .indentation hpending hrest rfl rfl hback hkinds
      · rw [next_of_text hpending hrest hc, cutToken, hrest]
        cases hcut : Token.cut? (c :: rest) with
        | none => exact .unrecognised hpending hrest hc hcut
        | some found =>
          obtain ⟨kind, value, rest'⟩ := found
          exact .cut hpending (hrest ▸ hcut) rfl

/-- The scanner goes on in exactly one way. -/
theorem goes_iff : scanner.Goes delivery after ↔ scanner.next = (delivery, after) := by
  constructor
  · exact Goes.next_eq
  · intro h
    have hgoes := scanner.goes_next
    rwa [h] at hgoes

end Scanner

end Offside
