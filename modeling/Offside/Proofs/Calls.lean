import Offside.Proofs.Scanner.Closing
import Offside.Proofs.Scanner.Gaps
import Offside.Proofs.Token.Lines
import Offside.Scanner.Walk

/-!
# Calls on a walk

A walk over a text can be asked for the next token, also behind the end of the text and after a
fault, or for the next item of the iteration, which is over by then. Whatever was asked of it before
(`Scanner.Walk.sound_answers`), the widths of its open blocks grow from 0, the indent and outdent
tokens that it has delivered or keeps waiting come to as many blocks, and it knows its line and its
column. A line break is a fault where the next line ends a block but is indented like none of those
around it, and nowhere else.

A fault in the indentation leaves the walk on the new line, with the blocks closed and their outdent
tokens waiting (`Scanner.Trip`), so the blocks and the tokens agree there as well.
-/

namespace Offside

open Text (lineAfter columnAfter Blank Solid levelAfter)
open Token (Leads leads_append_iff)

/-! ## Layouts -/

namespace Layout

variable {layout : Layout} {level : Nat}

/-- Where the widths descend to 0, that is the last of them. -/
theorem getLast?_widths (hbottom : 0 ∈ layout.widths) (hdescends : layout.Descends) :
    layout.widths.getLast? = some 0 := by
  obtain ⟨inner, outer, hwidths⟩ := List.append_of_mem hbottom
  rw [Descends, hwidths] at hdescends
  have houter := (List.pairwise_cons.1 (List.pairwise_append.1 hdescends).2.1).1
  cases outer with
  | nil => rw [hwidths, List.getLast?_concat]
  | cons width outer => exact absurd (houter width List.mem_cons_self) (Nat.not_lt_zero width)

/-- A line leaves its own width on top, unless it goes back to a width that no block has. -/
theorem width_enter_iff (hbottom : 0 ∈ layout.widths) (hdescends : layout.Descends) :
    (layout.enter level).width = level ↔ ¬ (level < layout.width ∧ level ∉ layout.widths) := by
  by_cases hdeeper : layout.width < level
  · rw [enter, if_pos hdeeper]
    exact ⟨fun _ h => absurd h.1 (by omega), fun _ => rfl⟩
  have henter : (layout.enter level).widths = layout.widths.dropWhile (level < ·) := by
    rw [enter, if_neg hdeeper]
  have hdescends' := descends_enter hdescends level
  have hhead := List.head?_dropWhile_not (fun width => decide (level < width)) layout.widths
  have hbottom' : 0 ∈ (layout.enter level).widths := bottom_enter hbottom
  obtain ⟨top, outer, htop⟩ := List.exists_cons_of_ne_nil (List.ne_nil_of_mem hbottom')
  rw [← henter, htop] at hhead
  rw [Descends, htop, List.pairwise_cons] at hdescends'
  have hle : top ≤ level := by simpa using hhead
  have hsuffix : top :: outer <:+ layout.widths := by
    rw [← htop, henter]
    exact List.dropWhile_suffix _
  have hwidth : (layout.enter level).width = top := by rw [width, htop]; rfl
  rw [hwidth]
  constructor
  · rintro rfl ⟨-, hnot⟩
    exact hnot (hsuffix.subset List.mem_cons_self)
  · intro hnot
    have hmem : level ∈ layout.widths := by
      by_cases hback : level < layout.width
      · exact Classical.not_not.1 fun h => hnot ⟨hback, h⟩
      · obtain ⟨inner, others, hwidths⟩ := List.exists_cons_of_ne_nil (List.ne_nil_of_mem hbottom)
        have hinner : layout.width = inner := by rw [width, hwidths]; rfl
        rw [hwidths, show level = inner by omega]
        exact List.mem_cons_self
    have hkept : level ∈ top :: outer := by
      rw [← htop, henter]
      rw [← List.takeWhile_append_dropWhile (p := (level < ·)) (l := layout.widths),
        List.mem_append] at hmem
      refine hmem.resolve_left fun h => ?_
      simpa using List.all_eq_true.1 (List.all_takeWhile ..) _ h
    rcases List.mem_cons.1 hkept with rfl | houter
    · rfl
    · have := hdescends'.1 level houter
      omega

/-- A line break is a fault where the line does not leave its own width on top. -/
theorem breaks?_eq_none_iff (hbottom : 0 ∈ layout.widths) :
    layout.breaks? level = none ↔ (layout.enter level).width ≠ level := by
  constructor
  · intro hnone
    obtain ⟨-, -, hwidth⟩ := exists_back_of_breaks? hnone
    exact hwidth
  · intro hwidth
    cases hkinds : layout.breaks? level with
    | none => rfl
    | some kinds => exact absurd (breaks_of_breaks? hkinds hbottom).width_enter hwidth

end Layout

namespace Scanner

variable {source : String} {scanner after : Scanner} {token : Token} {fault : Fault}
  {tokens delivered : List Token} {gap text : List Char}

/-! ## Faults -/

/-- The scanner delivers the fault, and goes on as the scanner after it. -/
inductive Trip (scanner : Scanner) : Fault → Scanner → Prop
  | indentation {rest : List Char} {closed : List Nat} (hpending : scanner.pending = [])
    (hrest : scanner.skipSpaces.rest = '\n' :: rest)
    (hback : scanner.layout.shift (LineStart.seek 1 0 rest).level = .back closed)
    (hkinds : scanner.layout.breaks? (LineStart.seek 1 0 rest).level = none) :
    Trip scanner
      ((scanner.afterBreak rest).fault
        (.inconsistentIndentation (LineStart.seek 1 0 rest).level) (LineStart.seek 1 0 rest).level)
      { scanner.afterBreak rest with
        pending := (scanner.afterBreak rest).breakTokens (closed.map fun _ => .outdent) }
  | unrecognised (hpending : scanner.pending = [])
    (hcut : Token.cut? scanner.skipSpaces.rest = none) :
    Trip scanner
      (scanner.skipSpaces.fault
        (.unrecognised (String.ofList (scanner.skipSpaces.rest.take 6))) scanner.skipSpaces.column)
      scanner.skipSpaces

theorem Goes.trip {delivery : Delivery} (h : scanner.Goes delivery after)
    (hresult : delivery.result = .error fault) : scanner.Trip fault after := by
  cases h with
  | indentation hpending hrest hline hlevel hback hkinds =>
    subst hline hlevel
    cases hresult
    have htrip := Trip.indentation hpending hrest hback hkinds
    rw [breakTokens, List.map_map] at htrip
    exact htrip
  | unrecognised hpending hrest _ hcut =>
    cases hresult
    rw [← hrest] at hcut ⊢
    exact .unrecognised hpending hcut
  | _ => cases hresult

theorem trip_next (h : scanner.next.1.result = .error fault) : scanner.Trip fault scanner.next.2 :=
  scanner.goes_next.trip h

/-! ## The invariant -/

/-- The scanner walks over the source and has delivered the tokens. -/
structure Sound (source : String) (delivered : List Token) (scanner : Scanner) : Prop where
  bottom : 0 ∈ scanner.layout.widths
  descends : scanner.layout.Descends
  leads : Leads 0 (delivered ++ scanner.pending) scanner.layout.depth
  located : ∃ before, scanner.Located source before

theorem sound_ofText (source : String) (file : Option String) :
    (ofText source file).Sound source [] where
  bottom := List.mem_singleton.2 rfl
  descends := List.pairwise_singleton _ _
  leads := .nil
  located := ⟨[], located_ofText source file⟩

theorem Step.located {before : List Char} (h : scanner.Step token after)
    (hlocated : scanner.Located source before) : ∃ before, after.Located source before := by
  cases h with
  | release => exact ⟨before, hlocated.text, hlocated.line, hlocated.column⟩
  | stop => exact ⟨_, hlocated.skipSpaces⟩
  | lineBreak _ hrest =>
    obtain ⟨blank, -, hafter⟩ := hlocated.afterBreak hrest
    exact ⟨_, hafter.text, hafter.line, hafter.column⟩
  | cut _ hcut => exact ⟨_, hlocated.afterCut hcut⟩

theorem Trip.located {before : List Char} (h : scanner.Trip fault after)
    (hlocated : scanner.Located source before) : ∃ before, after.Located source before := by
  cases h with
  | indentation _ hrest =>
    obtain ⟨blank, -, hafter⟩ := hlocated.afterBreak hrest
    exact ⟨_, hafter.text, hafter.line, hafter.column⟩
  | unrecognised => exact ⟨_, hlocated.skipSpaces⟩

/-- A fault changes the open blocks and the waiting tokens alike. -/
theorem Trip.leads (h : scanner.Trip fault after) (hbottom : 0 ∈ scanner.layout.widths)
    (hleads : Leads 0 (delivered ++ scanner.pending) scanner.layout.depth) :
    Leads 0 (delivered ++ after.pending) after.layout.depth := by
  cases h with
  | indentation hpending _ hback =>
    rw [hpending, List.append_nil] at hleads
    exact leads_append_iff.2 ⟨_, hleads,
      .cons ⟨nofun, nofun, fun _ _ => rfl⟩ (Layout.leads_back _ hbottom hback)⟩
  | unrecognised => exact hleads

theorem Sound.step (h : scanner.Sound source delivered)
    (hresult : scanner.next.1.result = .ok token) :
    scanner.next.2.Sound source (delivered ++ [token]) where
  bottom := bottom_next h.bottom
  descends := descends_next h.descends
  leads := by
    obtain ⟨depth, hdelivered, hpending⟩ := leads_append_iff.1 h.leads
    obtain ⟨depth', hnests, hafter⟩ := (step_next hresult).leads h.bottom hpending
    rw [List.append_assoc]
    exact leads_append_iff.2 ⟨depth, hdelivered, .cons hnests hafter⟩
  located := h.located.elim fun _ hlocated => (step_next hresult).located hlocated

theorem Sound.trip (h : scanner.Sound source delivered)
    (hresult : scanner.next.1.result = .error fault) : scanner.next.2.Sound source delivered where
  bottom := bottom_next h.bottom
  descends := descends_next h.descends
  leads := (trip_next hresult).leads h.bottom h.leads
  located := h.located.elim fun _ hlocated => (trip_next hresult).located hlocated

/-- The end token opens no block and closes none. -/
theorem Sound.withoutEnd (h : scanner.Sound source (delivered ++ [token]))
    (hend : token.isEnd = true) : scanner.Sound source delivered where
  bottom := h.bottom
  descends := h.descends
  leads := by
    have hkind : token.kind = .endOfText := beq_iff_eq.1 hend
    have hleads := h.leads
    rw [List.append_assoc] at hleads
    obtain ⟨depth, hdelivered, hrest⟩ := leads_append_iff.1 hleads
    obtain _ | ⟨hnests, hpending⟩ := hrest
    rw [hnests.plain (by simp [hkind]) (by simp [hkind])] at hpending
    exact leads_append_iff.2 ⟨depth, hdelivered, hpending⟩
  located := h.located

/-! ## Line breaks -/

/-- Across a gap with line breaks a scanner comes to a line, or to the end of the text. -/
theorem next_gap {before : List Char} (hpending : scanner.pending = [])
    (hlocated : scanner.Located source before)
    (hrest : scanner.rest = gap ++ text) (hblank : Blank gap) (hbreak : '\n' ∈ gap)
    (hsolid : Solid text) :
    (scanner.next.1.result = .error ⟨.inconsistentIndentation (levelAfter gap text),
        .ofLength scanner.file (lineAfter (before ++ gap)) (levelAfter gap text) 1⟩ ∧
      scanner.layout.breaks? (levelAfter gap text) = none) ∨
    (∃ token, scanner.next.1.result = .ok token ∧ token.isEnd = false) ∧
      scanner.layout.breaks? (levelAfter gap text) ≠ none ∧
        scanner.next.2.layout = scanner.layout.enter (levelAfter gap text) := by
  obtain ⟨rest, hskip, hrest', hcolumn⟩ := exists_break text hblank hbreak
  have hskip' : scanner.skipSpaces.rest = '\n' :: (rest ++ text) := by
    rw [← hskip, ← hrest]
    rfl
  have hlevel : (LineStart.seek 1 0 (rest ++ text)).level = levelAfter gap text := by
    rw [LineStart.level_gap hrest' hsolid, levelAfter, hcolumn]
    rfl
  have hline : (scanner.afterBreak (rest ++ text)).line = lineAfter (before ++ gap) := by
    obtain ⟨gap', htext, hblank', -, hsolid', -⟩ := exists_gap_afterBreak hskip'
    obtain ⟨passed, earlier, htext', hpassed, hline, -⟩ := exists_passed_afterBreak hskip'
    obtain ⟨rfl, hafter⟩ := hblank.unique hblank' hsolid hsolid' (hrest.symm.trans htext)
    obtain ⟨rfl, -⟩ := hblank.unique hpassed hsolid hsolid' (hrest.symm.trans htext')
    rw [hline, hlocated.line, lineAfter, lineAfter, List.count_append]
    omega
  rw [← hlevel]
  cases hkinds : scanner.layout.breaks? (LineStart.seek 1 0 (rest ++ text)).level with
  | some kinds =>
    rw [(Goes.lineBreak hpending hskip' rfl rfl hkinds).next_eq]
    exact .inr ⟨⟨_, rfl, rfl⟩, Option.some_ne_none _, rfl⟩
  | none =>
    obtain ⟨closed, hback, -⟩ := Layout.exists_back_of_breaks? hkinds
    rw [(Goes.indentation hpending hskip' rfl rfl hback hkinds).next_eq, ← hline]
    exact .inl ⟨rfl, rfl⟩

namespace Walk

/-! ## Calls -/

/-- A walk at the beginning of a text. -/
def ofText (source : String) (file : Option String) : Walk where
  scanner := .ofText source file

/-- What a walk can be asked for. -/
inductive Call where
  /-- The next token of the scanner, wherever that is. -/
  | token
  /-- The next item of the walk, which may be over. -/
  | item

/-- The answer to a call, if there is one, and the walk after it. -/
def answer (walk : Walk) : Call → Option (Except Fault Token) × Walk
  | .token => (some walk.scanner.next.1.result, { walk with scanner := walk.scanner.next.2 })
  | .item => walk.next?

/-- The answers to some calls in a row, and the walk after them. -/
def answers (walk : Walk) : List Call → List (Except Fault Token) × Walk
  | [] => ([], walk)
  | call :: calls =>
    ((walk.answer call).1.toList ++ ((walk.answer call).2.answers calls).1,
      ((walk.answer call).2.answers calls).2)

/-- The call reaches the scanner. A walk that is over asks it for nothing. -/
def Serves (walk : Walk) (call : Call) : Prop :=
  call = .token ∨ walk.finished = false

/-- The call leads over a line break to the given line, which is indented by `level`. -/
structure Crosses (walk : Walk) (call : Call) (line level : Nat) : Prop where
  fault_iff : (walk.answer call).1 = some (.error ⟨.inconsistentIndentation level,
      .ofLength walk.scanner.file line level 1⟩) ↔
    level < walk.scanner.layout.width ∧ level ∉ walk.scanner.layout.widths
  top : ¬ (level < walk.scanner.layout.width ∧ level ∉ walk.scanner.layout.widths) →
    (∃ token, (walk.answer call).1 = some (.ok token)) ∧
      (walk.answer call).2.scanner.layout.width = level

/-- The walk over the source has delivered the tokens. A gap of white space with line breaks leads
it to a line with text, or to the end of the text, where the level is 0. -/
structure Sound (source : String) (delivered : List Token) (walk : Walk) : Prop where
  bottom : walk.scanner.layout.widths.getLast? = some 0
  descends : walk.scanner.layout.widths.Pairwise (· > ·)
  balance : Token.depth (delivered ++ walk.scanner.pending) =
    (walk.scanner.layout.widths.length : Int) - 1
  located : ∃ before, walk.scanner.Located source before
  crosses : ∀ call before gap text, walk.Serves call → walk.scanner.pending = [] →
    walk.scanner.Located source before → walk.scanner.rest = gap ++ text → Blank gap →
      '\n' ∈ gap → Solid text → walk.Crosses call (lineAfter (before ++ gap)) (levelAfter gap text)

variable {walk : Walk} {call : Call}

/-- An answered call moves the scanner once, and its answer is what the scanner delivers. Only the
end of the text is not answered with its token. -/
theorem answer_cases (h : walk.Serves call) :
    (walk.answer call).2.scanner = walk.scanner.next.2 ∧
      ((walk.answer call).1 = some walk.scanner.next.1.result ∨
        (walk.answer call).1 = none ∧
          ∃ token, walk.scanner.next.1.result = .ok token ∧ token.isEnd = true) := by
  cases call with
  | token => exact ⟨rfl, .inl rfl⟩
  | item =>
    have hgoing : walk.finished = false := h.resolve_left (by simp)
    simp only [answer, next?, hgoing, Bool.false_eq_true, if_false]
    cases hresult : walk.scanner.next.1.result with
    | error fault => exact ⟨rfl, .inl rfl⟩
    | ok token =>
      dsimp only
      split
      · exact ⟨rfl, .inr ⟨rfl, token, rfl, ‹_›⟩⟩
      · exact ⟨rfl, .inl rfl⟩

theorem answer_of_not_serves (h : ¬ walk.Serves call) : walk.answer call = (none, walk) := by
  obtain ⟨hcall, hfinished⟩ := not_or.1 h
  cases call with
  | token => exact absurd rfl hcall
  | item => simp [answer, next?, hfinished]

theorem sound_answer (h : walk.scanner.Sound source delivered) (call : Call) :
    (walk.answer call).2.scanner.Sound source
      (delivered ++ (walk.answer call).1.toList.filterMap Except.toOption) := by
  by_cases hserves : walk.Serves call
  · obtain ⟨hscanner, hanswer | ⟨hanswer, token, hresult, hend⟩⟩ := answer_cases hserves
    · rw [hscanner, hanswer]
      cases hresult : walk.scanner.next.1.result with
      | ok token => exact h.step hresult
      | error fault =>
        have hnone : (some (.error fault : Except Fault Token)).toList.filterMap Except.toOption =
          [] := rfl
        rw [hnone, List.append_nil]
        exact h.trip hresult
    · rw [hscanner, hanswer]
      simpa using (h.step hresult).withoutEnd hend
  · rw [answer_of_not_serves hserves]
    simpa using h

/-- Calls in a row keep what each of them keeps. -/
theorem sound_scanner_answers (h : walk.scanner.Sound source delivered) (calls : List Call) :
    (walk.answers calls).2.scanner.Sound source
      (delivered ++ (walk.answers calls).1.filterMap Except.toOption) := by
  induction calls generalizing walk delivered with
  | nil => simpa [answers] using h
  | cons call calls ih =>
    rw [answers, List.filterMap_append, ← List.append_assoc]
    exact ih (sound_answer h call)

theorem crosses_of_sound {before : List Char} (h : walk.scanner.Sound source delivered)
    (hserves : walk.Serves call) (hpending : walk.scanner.pending = [])
    (hlocated : walk.scanner.Located source before) (hrest : walk.scanner.rest = gap ++ text)
    (hblank : Blank gap) (hbreak : '\n' ∈ gap) (hsolid : Solid text) :
    walk.Crosses call (lineAfter (before ++ gap)) (levelAfter gap text) := by
  obtain ⟨hscanner, hanswer⟩ := answer_cases hserves
  have hnone : walk.scanner.layout.breaks? (levelAfter gap text) = none ↔
      levelAfter gap text < walk.scanner.layout.width ∧
        levelAfter gap text ∉ walk.scanner.layout.widths := by
    rw [Layout.breaks?_eq_none_iff h.bottom, ne_eq, Layout.width_enter_iff h.bottom h.descends,
      Classical.not_not]
  obtain ⟨hfault, hinconsistent⟩ | ⟨⟨token, hresult, hend⟩, hconsistent, hlayout⟩ :=
    Scanner.next_gap hpending hlocated hrest hblank hbreak hsolid
  · have hwhere := hnone.1 hinconsistent
    rw [hfault] at hanswer
    have hanswer' := hanswer.resolve_right fun ⟨_, _, hok, _⟩ => nomatch hok
    exact ⟨⟨fun _ => hwhere, fun _ => hanswer'⟩, fun hnot => absurd hwhere hnot⟩
  · have hwhere := mt hnone.2 hconsistent
    rw [hresult] at hanswer
    have hanswer' : (walk.answer call).1 = some (.ok token) := by
      refine hanswer.resolve_right fun ⟨_, last, hlast, hend'⟩ => ?_
      cases hlast
      rw [hend] at hend'
      cases hend'
    refine ⟨⟨fun hfault => ?_, fun h => absurd h hwhere⟩, fun _ => ⟨⟨token, hanswer'⟩, ?_⟩⟩
    · rw [hanswer'] at hfault
      cases hfault
    · rw [hscanner, hlayout]
      exact (Layout.width_enter_iff h.bottom h.descends).2 hwhere

/-- Whatever a walk over a text is asked for, its open blocks, the tokens it has delivered and its
place agree with each other, and so does the answer to the next call with the text ahead. -/
theorem sound_answers (source : String) (file : Option String) (calls : List Call) :
    ((ofText source file).answers calls).2.Sound source
      (((ofText source file).answers calls).1.filterMap Except.toOption) := by
  have hstart : (ofText source file).scanner.Sound source [] := sound_ofText source file
  have h := sound_scanner_answers hstart calls
  rw [List.nil_append] at h
  refine ⟨Layout.getLast?_widths h.bottom h.descends, h.descends, ?_, h.located, ?_⟩
  · have hpos := List.length_pos_of_mem h.bottom
    rw [h.leads.depth_eq, Layout.depth]
    omega
  · intro call before gap text hserves hpending hlocated hrest hblank hbreak hsolid
    exact crosses_of_sound h hserves hpending hlocated hrest hblank hbreak hsolid

/-- After the fault of the last line its newline token and the outdent token come as usual. -/
example : ((ofText "a\n    b\n  c" none).answers (List.replicate 8 .token)).1.map
      (·.toOption.map Token.kind) =
    [some .identifier, some .newline, some .indent, some .identifier, none, some .newline,
      some .outdent, some .identifier] := by
  decide +kernel

end Walk

end Scanner

end Offside
