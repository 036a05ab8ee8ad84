import Offside.Proofs.Segments
import Offside.Proofs.Token.Spelling

/-!
# Where the caret stands

A fault is shown in whole lines: its line of the text behind a header with the name of the file and
the number of the line, under it the mark, and around them the lines next to it
(`Span.render_eq_unlines`). The mark is set off by the bytes of the header, while the column of a
place counts characters. So the caret stands under the offending character if the name of the file is
ASCII, and too far to the right if it is not (`caret_of_fault`).
-/

namespace Offside

/-! ## Bytes and characters -/

namespace Text

/-- Whether every character is one byte. -/
def isAscii (text : String) : Bool :=
  text.toList.all fun c => c.val ≤ 127

theorem isAscii_append (text others : String) :
    isAscii (text ++ others) = (isAscii text && isAscii others) := by
  rw [isAscii, String.toList_append, List.all_append, isAscii, isAscii]

/-- There are at least as many bytes as characters, and only in ASCII as many. -/
theorem utf8ByteSize_iff (text : String) : text.length ≤ text.utf8ByteSize ∧
    (text.utf8ByteSize = text.length ↔ isAscii text = true) := by
  obtain ⟨characters, rfl⟩ : ∃ characters, text = String.ofList characters :=
    ⟨text.toList, String.ofList_toList.symm⟩
  induction characters with
  | nil => decide
  | cons c characters ih =>
    have hsize := c.utf8Size_pos
    rw [String.ofList_cons, String.utf8ByteSize_append, String.utf8ByteSize_singleton,
      String.length_append, String.length_singleton, isAscii_append, Bool.and_eq_true, ← ih.2]
    have hfirst : isAscii (String.singleton c) = true ↔ c.utf8Size = 1 := by
      rw [Char.utf8Size_eq_one_iff, isAscii, String.toList_singleton]
      simp
    rw [hfirst]
    omega

theorem isAscii_repr (number : Nat) : isAscii number.repr = true := by
  rw [isAscii, Nat.toList_repr]
  refine List.all_eq_true.2 fun c hc => decide_eq_true ?_
  have hdigit := Pattern.toNat_of_isDigit
    (Nat.isDigit_of_mem_toDigits (by decide) (by decide) hc)
  exact UInt32.le_iff_toNat_le.2 (Nat.le_trans hdigit.2 (by decide))

theorem newline_not_mem_toDigits (number : Nat) : '\n' ∉ Nat.toDigits 10 number := by
  intro hmem
  have hdigit := Nat.isDigit_of_mem_toDigits (by decide) (by decide) hmem
  exact absurd hdigit (by decide)

/-- No line contains a line feed. -/
theorem newline_not_mem_lines (text : List Char) : ∀ line ∈ lines text, '\n' ∉ line := by
  fun_induction lines text with
  | case1 => simp
  | case2 rest ih => exact List.forall_mem_cons.2 ⟨List.not_mem_nil, ih⟩
  | case3 rest ih => exact List.forall_mem_cons.2 ⟨List.not_mem_nil, ih⟩
  | case4 c rest hc _ hlines ih =>
    exact List.forall_mem_singleton.2 fun hmem => hc (List.mem_singleton.1 hmem).symm
  | case5 c rest hc _ line others hlines ih =>
    obtain ⟨hline, hothers⟩ := List.forall_mem_cons.1 (hlines ▸ ih)
    refine List.forall_mem_cons.2 ⟨fun hmem => ?_, hothers⟩
    rcases List.mem_cons.1 hmem with heq | hmem
    · exact hc heq.symm
    · exact hline hmem

theorem newline_not_mem_line? {text line : String} {number : Nat}
    (h : line? text number = some line) : '\n' ∉ line.toList := by
  cases number with
  | zero => cases h
  | succ number =>
    obtain ⟨characters, hline, rfl⟩ := Option.map_eq_some_iff.1 h
    rw [String.toList_ofList]
    exact newline_not_mem_lines _ _ (List.mem_of_getElem? hline)

/-- Lines, each with a line feed after it. -/
def unlines (lines : List String) : String :=
  String.join (lines.map (· ++ "\n"))

end Text

/-! ## The lines of a fault -/

namespace Span

/-- What the line of a place is shown behind. -/
def header (span : Span) : String :=
  span.file ++ "#" ++ toString span.line ++ ": "

/-- The mark below a place, `blanks` characters to the right. -/
def mark (span : Span) (blanks : Nat) : String :=
  String.ofList (List.replicate blanks ' ' ++ '^' :: List.replicate (span.length - 1) '~')

/-- A line next to that of a place, if the text has it. -/
def neighbour (span : Span) (source : String) (number : Nat) : List String :=
  ((Text.line? source number).map ({ span with line := number }.header ++ ·)).toList

/-- The lines that are shown of a place whose mark is set off by `blanks`. -/
def shownLines (span : Span) (source : String) (blanks : Nat) : List String :=
  span.neighbour source (span.line - 1) ++
    [span.header ++ (Text.line? source span.line).getD "", span.mark blanks] ++
      span.neighbour source (span.line + 1)

theorem toList_pushn (text : String) (c : Char) (count : Nat) :
    (text.pushn c count).toList = text.toList ++ List.replicate count c := by
  induction count with
  | zero => simp [String.pushn, Nat.repeat]
  | succ count ih =>
    rw [String.pushn] at ih ⊢
    rw [Nat.repeat, String.toList_push, ih, List.append_assoc, ← List.replicate_succ']

theorem underline_eq (span : Span) :
    span.underline = span.mark (span.column + span.header.utf8ByteSize) ++ "\n" := by
  refine String.toList_inj.1 ?_
  simp [underline, mark, header, toList_pushn]

theorem unlines_neighbour (span : Span) (source : String) (number : Nat) :
    Text.unlines (span.neighbour source number) =
      ((Text.line? source number).map (renderLine span.file number)).getD "" := by
  cases hline : Text.line? source number <;>
    simp [neighbour, hline, Text.unlines, renderLine, header]

/-- The mark is set off by the bytes of the header. -/
theorem render_eq_unlines (span : Span) (source : String) : span.render source =
    Text.unlines (span.shownLines source (span.column + span.header.utf8ByteSize)) := by
  rw [render]
  dsimp only
  rw [underline_eq, ← unlines_neighbour, ← unlines_neighbour]
  simp [shownLines, Text.unlines, renderLine, header, String.append_assoc]

theorem newline_not_mem_header (span : Span) (hfile : '\n' ∉ span.file.toList) :
    '\n' ∉ span.header.toList := by
  simp [header, hfile, Text.newline_not_mem_toDigits]

theorem newline_not_mem_neighbour {span : Span} (hfile : '\n' ∉ span.file.toList) (source : String)
    (number : Nat) : ∀ line ∈ span.neighbour source number, '\n' ∉ line.toList := by
  have hheader := newline_not_mem_header { span with line := number } hfile
  intro line hline
  rw [neighbour, Option.mem_toList, Option.map_eq_some_iff] at hline
  obtain ⟨text, htext, rfl⟩ := hline
  rw [String.toList_append, List.mem_append, not_or]
  exact ⟨hheader, Text.newline_not_mem_line? htext⟩

/-- What is shown in lines are lines, if the name of the file is on one. -/
theorem newline_not_mem_shownLines {span : Span} (hfile : '\n' ∉ span.file.toList)
    (source : String) (blanks : Nat) : ∀ line ∈ span.shownLines source blanks, '\n' ∉ line.toList := by
  have htext : '\n' ∉ ((Text.line? source span.line).getD "").toList := by
    cases hline : Text.line? source span.line with
    | none => simp
    | some line => exact Text.newline_not_mem_line? hline
  refine List.forall_mem_append.2 ⟨List.forall_mem_append.2
    ⟨newline_not_mem_neighbour hfile source _, List.forall_mem_cons.2 ⟨?_, ?_⟩⟩,
    newline_not_mem_neighbour hfile source _⟩
  · rw [String.toList_append, List.mem_append, not_or]
    exact ⟨newline_not_mem_header span hfile, htext⟩
  · simp [mark]

/-- A header is ASCII exactly if the name of the file is. -/
theorem utf8ByteSize_header_iff (span : Span) : span.header.length ≤ span.header.utf8ByteSize ∧
    (span.header.utf8ByteSize = span.header.length ↔ Text.isAscii span.file = true) := by
  obtain ⟨hle, hiff⟩ := Text.utf8ByteSize_iff span.header
  refine ⟨hle, hiff.trans ?_⟩
  have hsharp : Text.isAscii "#" = true := by decide
  have hcolon : Text.isAscii ": " = true := by decide
  simp [header, Text.isAscii_append, Text.isAscii_repr, hsharp, hcolon]

end Span

/-! ## The file of a fault -/

namespace Scanner

variable {scanner after : Scanner}

theorem Goes.file {delivery : Delivery} (h : scanner.Goes delivery after) :
    after.file = scanner.file ∧
      ∀ fault, delivery.result = .error fault → fault.span.file = scanner.file := by
  cases h with
  | lineBreak _ _ hline =>
    rw [hline]
    exact ⟨rfl, nofun⟩
  | indentation _ _ hline =>
    subst hline
    refine ⟨rfl, fun fault hfault => ?_⟩
    cases hfault
    rfl
  | unrecognised =>
    refine ⟨rfl, fun fault hfault => ?_⟩
    cases hfault
    rfl
  | _ => exact ⟨rfl, nofun⟩

theorem Delivers.file_eq {tokens : List Token} (h : Delivers scanner tokens after) :
    after.file = scanner.file := by
  induction h with
  | refl => rfl
  | step _ _ _ ih => rw [ih, (goes_next _).file.1]

end Scanner

/-- The first fault of a text is in its file. -/
theorem span_file_of_tokenize {source : String} {file : Option String} {fault : Fault}
    (h : (tokenize source file).result = .error fault) :
    fault.span.file = file.getD Scanner.unknownFile := by
  obtain ⟨after, hdelivers, hfault⟩ := Scanner.exists_delivers_of_error h
  rw [after.goes_next.file.2 fault hfault, hdelivers.file_eq]
  rfl

theorem span_file_of_parse {source : String} {file : Option String} {fault : Fault}
    (h : (parse source file).result = .error (.fault fault)) :
    fault.span.file = file.getD Scanner.unknownFile := by
  obtain ⟨_, heq, hfault⟩ := exists_fault_of_parse h
  cases heq
  cases hphase : fault.cause.phase with
  | lexical => exact span_file_of_tokenize (hfault.lexical hphase)
  | grammatical =>
    obtain ⟨token, -, hspan⟩ := hfault.grammatical hphase
    rw [hspan]
    rfl

/-! ## Whole texts -/

/-- Whether a result is a given fault can be computed. -/
theorem error_eq_iff {α : Type} (result : Except Fault α) (fault : Fault) :
    (match result with | .ok _ => false | .error found => found == fault) = true ↔
      result = .error fault := by
  cases result <;> simp

/-- The fault of a text is shown with its line right above the mark. The caret is not before the
column of the fault behind the header, and it is there exactly if the name of the file is ASCII. -/
theorem caret_of_fault {source : String} {file : Option String} {fault : Fault}
    (hname : '\n' ∉ (file.getD Scanner.unknownFile).toList)
    (h : (tokenize source file).result = .error fault ∨
      (parse source file).result = .error (.fault fault)) :
    fault.span.file = file.getD Scanner.unknownFile ∧ ∃ blanks,
      fault.span.render source = Text.unlines (fault.span.shownLines source blanks) ∧
        (∀ line ∈ fault.span.shownLines source blanks, '\n' ∉ line.toList) ∧
          fault.span.header.length + fault.span.column ≤ blanks ∧
            (blanks = fault.span.header.length + fault.span.column ↔
              Text.isAscii (file.getD Scanner.unknownFile) = true) := by
  have hfile : fault.span.file = file.getD Scanner.unknownFile :=
    h.elim span_file_of_tokenize span_file_of_parse
  obtain ⟨hle, hiff⟩ := fault.span.utf8ByteSize_header_iff
  rw [← hfile] at hname ⊢
  refine ⟨rfl, _, fault.span.render_eq_unlines source,
    Span.newline_not_mem_shownLines hname source _, by omega, ?_⟩
  rw [← hiff]
  omega

theorem caret_of_fault_at :
    let fault : Fault := ⟨.unrecognised "@", .ofLength "a.ibex" 1 2 1⟩
    (tokenize "b @" (some "a.ibex")).result = .error fault ∧
      fault.span.file = "a.ibex" ∧ ∃ blanks,
        fault.span.render "b @" = Text.unlines (fault.span.shownLines "b @" blanks) ∧
          (∀ line ∈ fault.span.shownLines "b @" blanks, '\n' ∉ line.toList) ∧
            fault.span.header.length + fault.span.column ≤ blanks ∧
              (blanks = fault.span.header.length + fault.span.column ↔
                Text.isAscii "a.ibex" = true) := by
  intro fault
  have hfault : (tokenize "b @" (some "a.ibex")).result = .error fault :=
    (error_eq_iff _ _).1 (by decide +kernel)
  exact ⟨hfault, caret_of_fault (by decide) (.inl hfault)⟩

/-- A name with a letter of two bytes sets the caret off by one character more. -/
theorem caret_accented :
    let fault : Fault := ⟨.unrecognised "@", .ofLength "\u00e9" 1 0 1⟩
    (tokenize "@" (some "\u00e9")).result = .error fault ∧
      fault.span.render "@" = Text.unlines (fault.span.shownLines "@" 6) ∧
        fault.span.header.length + fault.span.column = 5 := by
  intro fault
  exact ⟨(error_eq_iff _ _).1 (by decide +kernel), by decide +kernel, by decide +kernel⟩

end Offside
