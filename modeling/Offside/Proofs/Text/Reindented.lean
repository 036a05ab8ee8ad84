import Offside.Proofs.Scanner.Gaps

/-!
# Lines that are indented anew

`Text.reindent` gives each line of a text `f width` spaces where it had `width`. The first line stays
as it is, and so do lines of spaces. What stands on one line is not touched
(`Text.reindent_append`), so that the words of the text are the same ones. White space with line breaks in it
becomes white space of the same kind: the level behind it is the image of the old one under `f`
(`Text.exists_reindent_gap`).
-/

namespace Offside.Text

/-- The line with `f width` spaces before its words, where it has `width`. A line without words stays
as it is. -/
def reindentLine (f : Nat → Nat) (line : List Char) : List Char :=
  let words := line.dropWhile (· == ' ')
  if words.isEmpty then line
  else List.replicate (f (line.takeWhile (· == ' ')).length) ' ' ++ words

/-- The text with all its lines indented anew. -/
def reindentAll (f : Nat → Nat) (text : List Char) : List Char :=
  ['\n'].intercalate ((text.splitOn '\n').map (reindentLine f))

/-- The text with its lines indented anew, the first one apart. -/
def reindent (f : Nat → Nat) (text : List Char) : List Char :=
  match text.splitOn '\n' with
  | [] => []
  | first :: lines => ['\n'].intercalate (first :: lines.map (reindentLine f))

/-- The source with its lines indented anew, the first one apart. -/
def reindented (f : Nat → Nat) (source : String) : String :=
  String.ofList (reindent f source.toList)

variable {f : Nat → Nat} {line piece behind text gap : List Char}

/-! ## Line by line -/

theorem reindent_eq_self (h : '\n' ∉ line) : reindent f line = line := by
  rw [reindent, List.splitOn_eq_singleton h]
  exact List.intercalate_singleton

theorem reindentAll_eq (h : '\n' ∉ line) : reindentAll f line = reindentLine f line := by
  rw [reindentAll, List.splitOn_eq_singleton h]
  exact List.intercalate_singleton

theorem intercalate_cons (line : List Char) {lines : List (List Char)} (h : lines ≠ []) :
    ['\n'].intercalate (line :: lines) = line ++ '\n' :: ['\n'].intercalate lines := by
  obtain ⟨next, others, rfl⟩ := List.exists_cons_of_ne_nil h
  rw [List.intercalate_cons_cons, List.append_assoc, List.singleton_append]

theorem map_splitOn_ne_nil (text : List Char) : (text.splitOn '\n').map (reindentLine f) ≠ [] := by
  simp [List.splitOn_ne_nil]

theorem reindent_newline (h : '\n' ∉ line) (text : List Char) :
    reindent f (line ++ '\n' :: text) = line ++ '\n' :: reindentAll f text := by
  rw [reindent, List.splitOn_append_cons_self_of_not_mem h]
  exact intercalate_cons line (map_splitOn_ne_nil text)

theorem reindentAll_newline (h : '\n' ∉ line) (text : List Char) :
    reindentAll f (line ++ '\n' :: text) = reindentLine f line ++ '\n' :: reindentAll f text := by
  rw [reindentAll, List.splitOn_append_cons_self_of_not_mem h]
  exact intercalate_cons _ (map_splitOn_ne_nil text)

/-- The first line of a text, and what follows it. -/
theorem exists_line (text : List Char) :
    ∃ line behind, text = line ++ behind ∧ '\n' ∉ line ∧ EndsLine behind := by
  by_cases hmem : '\n' ∈ text
  · obtain ⟨line, rest, rfl, hline⟩ := List.eq_append_cons_of_mem hmem
    exact ⟨line, '\n' :: rest, rfl, hline, .inr ⟨rest, rfl⟩⟩
  · exact ⟨text, [], (List.append_nil text).symm, hmem, .inl rfl⟩

/-- What stands on the first line stays. -/
theorem reindent_line (h : '\n' ∉ line) (hbehind : EndsLine behind) :
    reindent f (line ++ behind) = line ++ reindent f behind := by
  obtain rfl | ⟨rest, rfl⟩ := hbehind
  · rw [List.append_nil, reindent_eq_self h, reindent_eq_self List.not_mem_nil, List.append_nil]
  · have hnewline := reindent_newline (f := f) List.not_mem_nil rest
    rw [List.nil_append, List.nil_append] at hnewline
    rw [reindent_newline h, hnewline]

/-- A line behind a line break is indented anew. -/
theorem reindent_newline_line (h : '\n' ∉ line) (hbehind : EndsLine behind) :
    reindent f ('\n' :: (line ++ behind)) = '\n' :: (reindentLine f line ++ reindent f behind) := by
  have hnewline (rest : List Char) : reindent f ('\n' :: rest) = '\n' :: reindentAll f rest :=
    reindent_newline List.not_mem_nil rest
  rw [hnewline]
  obtain rfl | ⟨rest, rfl⟩ := hbehind
  · rw [List.append_nil, reindentAll_eq h, reindent_eq_self List.not_mem_nil, List.append_nil]
  · rw [reindentAll_newline h, hnewline]

theorem EndsLine.reindent (h : EndsLine behind) : EndsLine (reindent f behind) := by
  obtain rfl | ⟨rest, rfl⟩ := h
  · exact .inl (reindent_eq_self List.not_mem_nil)
  · exact .inr ⟨reindentAll f rest, reindent_newline List.not_mem_nil rest⟩

/-- What stands on one line stays. -/
theorem reindent_append (h : '\n' ∉ piece) (text : List Char) :
    reindent f (piece ++ text) = piece ++ reindent f text := by
  obtain ⟨line, behind, rfl, hline, hbehind⟩ := exists_line text
  have hpiece : '\n' ∉ piece ++ line := by simp [h, hline]
  rw [← List.append_assoc, reindent_line hpiece hbehind, reindent_line hline hbehind,
    List.append_assoc]

/-! ## The number of lines -/

/-- A text is a line, or a line before the rest of the text. -/
theorem line_induction {motive : List Char → Prop} (text : List Char)
    (line : ∀ line, '\n' ∉ line → motive line)
    (newline : ∀ line rest, '\n' ∉ line → motive rest → motive (line ++ '\n' :: rest)) :
    motive text := by
  obtain ⟨first, behind, htext, hfirst, rfl | ⟨rest, rfl⟩⟩ := exists_line text
  · rw [htext, List.append_nil]
    exact line first hfirst
  · rw [htext]
    exact newline first rest hfirst (line_induction rest line newline)
termination_by text.length
decreasing_by
  rw [htext, List.length_append, List.length_cons]
  omega

theorem newline_not_mem_reindentLine (h : '\n' ∉ line) : '\n' ∉ reindentLine f line := by
  rw [reindentLine]
  split
  · exact h
  · have hwords : '\n' ∉ line.dropWhile (· == ' ') :=
      fun hmem => h ((List.dropWhile_suffix _).subset hmem)
    simp [List.mem_replicate, hwords]

theorem count_reindentAll (text : List Char) :
    (reindentAll f text).count '\n' = text.count '\n' := by
  induction text using line_induction with
  | line line h =>
    rw [reindentAll_eq h, List.count_eq_zero.2 h,
      List.count_eq_zero.2 (newline_not_mem_reindentLine h)]
  | newline line rest h ih =>
    rw [reindentAll_newline h, List.count_append, List.count_append, List.count_cons_self,
      List.count_cons_self, List.count_eq_zero.2 h,
      List.count_eq_zero.2 (newline_not_mem_reindentLine h), ih]

/-- No line is lost. -/
theorem count_reindent (text : List Char) : (reindent f text).count '\n' = text.count '\n' := by
  obtain ⟨line, behind, rfl, hline, rfl | ⟨rest, rfl⟩⟩ := exists_line text
  · rw [List.append_nil, reindent_eq_self hline]
  · rw [reindent_newline hline, List.count_append, List.count_append, List.count_cons_self,
      List.count_cons_self, count_reindentAll]

/-! ## White space -/

theorem reindentLine_replicate (width : Nat) :
    reindentLine f (List.replicate width ' ') = List.replicate width ' ' := by
  have hdrop : (List.replicate width ' ').dropWhile (· == ' ') = [] := by simp
  rw [reindentLine, hdrop]
  rfl

/-- The words of a line stand behind other spaces. -/
theorem reindentLine_word {c : Char} (width : Nat) (hc : c ≠ ' ') (line : List Char) :
    reindentLine f (List.replicate width ' ' ++ c :: line) =
      List.replicate (f width) ' ' ++ c :: line := by
  have hc' : (c == ' ') = false := beq_eq_false_iff_ne.2 hc
  have hspaces : ∀ c ∈ List.replicate width ' ', (c == ' ') = true :=
    fun c hmem => beq_iff_eq.2 (List.eq_of_mem_replicate hmem)
  have hdrop : (List.replicate width ' ' ++ c :: line).dropWhile (· == ' ') = c :: line := by
    rw [List.dropWhile_append_of_pos hspaces, List.dropWhile_cons, hc']
    rfl
  have htake : (List.replicate width ' ' ++ c :: line).takeWhile (· == ' ') =
      List.replicate width ' ' := by
    rw [List.takeWhile_append_of_pos hspaces, List.takeWhile_cons, hc']
    exact List.append_nil _
  rw [reindentLine, hdrop, htake, List.length_replicate]
  rfl

/-- A text that begins with a word begins with the same word. -/
theorem reindent_cons {c : Char} (h : c ≠ '\n') (text : List Char) :
    reindent f (c :: text) = c :: reindent f text := by
  have hline : '\n' ∉ [c] := by simpa using h.symm
  exact reindent_append hline text

theorem Solid.reindent (h : Solid text) : Solid (reindent f text) := by
  cases text with
  | nil => exact h
  | cons c text =>
    rw [reindent_cons (h c rfl).2]
    exact fun first hfirst => h first hfirst

/-- Only what stands behind a line break counts for the level. -/
theorem levelAfter_newline (front gap text : List Char) :
    levelAfter (front ++ '\n' :: gap) text = levelAfter gap text := by
  rw [levelAfter, levelAfter, columnAfter_append_newline]

/-- White space behind a line break is indented anew. The induction follows `LineStart.seek`, which has
passed `width` spaces of the line already. -/
theorem exists_reindent_newline (hzero : f 0 = 0) (hblank : Blank gap) (hsolid : Solid text)
    (width : Nat) : ∃ gap', Blank gap' ∧
      reindent f ('\n' :: (List.replicate width ' ' ++ (gap ++ text))) =
        '\n' :: (gap' ++ reindent f text) ∧
      levelAfter gap' (reindent f text) = f (levelAfter (List.replicate width ' ' ++ gap) text) := by
  have hspaces (width : Nat) : '\n' ∉ List.replicate width ' ' := by simp [List.mem_replicate]
  induction gap generalizing width with
  | nil =>
    rw [List.append_nil]
    cases text with
    | nil =>
      refine ⟨List.replicate width ' ', blank_replicate width, ?_, hzero.symm⟩
      exact (reindent_newline_line (hspaces width) (.inl rfl)).trans
        (by rw [reindentLine_replicate])
    | cons c text =>
      obtain ⟨hspace, hline⟩ := hsolid c rfl
      obtain ⟨line, behind, rfl, hnone, hbehind⟩ := exists_line text
      refine ⟨List.replicate (f width) ' ', blank_replicate _, ?_, ?_⟩
      · have hword : '\n' ∉ List.replicate width ' ' ++ c :: line := by
          simp [List.mem_replicate, hnone, hline.symm]
        have hnewline := reindent_newline_line (f := f) hword hbehind
        rw [reindentLine_word width hspace] at hnewline
        rw [reindent_cons hline, reindent_line hnone hbehind]
        simpa using hnewline
      · rw [reindent_cons hline]
        show columnAfter ([] ++ _) = f (columnAfter ([] ++ _))
        rw [columnAfter_append (hspaces _), columnAfter_append (hspaces _), List.length_replicate,
          List.length_replicate]
        simp [columnAfter]
  | cons c gap ih =>
    obtain ⟨hc, hgap⟩ := List.forall_mem_cons.1 hblank
    rcases hc with rfl | rfl
    · have h := ih hgap (width + 1)
      rw [List.replicate_succ', List.append_assoc, List.append_assoc] at h
      exact h
    · obtain ⟨gap', hblank', htext, hlevel⟩ := ih hgap 0
      refine ⟨List.replicate width ' ' ++ '\n' :: gap', ?_, ?_, ?_⟩
      · exact blank_append_iff.2 ⟨blank_replicate width, List.forall_mem_cons.2 ⟨.inr rfl, hblank'⟩⟩
      · rw [List.cons_append, reindent_newline_line (hspaces width) (.inr ⟨_, rfl⟩),
          reindentLine_replicate, List.append_assoc]
        exact congrArg (fun rest => '\n' :: (List.replicate width ' ' ++ rest)) htext
      · rw [levelAfter_newline, levelAfter_newline]
        exact hlevel

/-- A gap with line breaks becomes another one. The level behind it is the image of the old one. -/
theorem exists_reindent_gap (hzero : f 0 = 0) (hblank : Blank gap) (hbreak : '\n' ∈ gap)
    (hsolid : Solid text) : ∃ gap', Blank gap' ∧ '\n' ∈ gap' ∧
      reindent f (gap ++ text) = gap' ++ reindent f text ∧
      levelAfter gap' (reindent f text) = f (levelAfter gap text) := by
  obtain ⟨spaces, rest, rfl, hspaces⟩ := List.eq_append_cons_of_mem hbreak
  obtain ⟨hblank', hrest⟩ := blank_append_iff.1 hblank
  obtain ⟨-, hrest⟩ := List.forall_mem_cons.1 hrest
  obtain ⟨gap', hgap', htext, hlevel⟩ := exists_reindent_newline hzero hrest hsolid 0
  refine ⟨spaces ++ '\n' :: gap', ?_, by simp, ?_, ?_⟩
  · exact blank_append_iff.2 ⟨hblank', List.forall_mem_cons.2 ⟨.inr rfl, hgap'⟩⟩
  · rw [List.append_assoc, reindent_append hspaces, List.append_assoc]
    exact congrArg (spaces ++ ·) htext
  · rw [levelAfter_newline, levelAfter_newline]
    exact hlevel

end Offside.Text
