import Offside.Proofs.Text.Indentation

/-!
# Places in a text

The place behind some characters of a text is a line and a column: one more than their line feeds,
and the characters after the last of these. What stands there on one line is found at that column of
the line with that number (`Text.exists_line?_of_append`), which loses a carriage return only at its
end.
-/

namespace Offside.Text

/-- The number of the line behind the characters. -/
def lineAfter (before : List Char) : Nat :=
  before.count '\n' + 1

/-- The number of characters between the last line feed and the end. -/
def columnAfter (before : List Char) : Nat :=
  (before.reverse.takeWhile (· != '\n')).length

variable {before piece : List Char}

theorem lineAfter_append (h : '\n' ∉ piece) : lineAfter (before ++ piece) = lineAfter before := by
  rw [lineAfter, lineAfter, List.count_append, List.count_eq_zero.2 h, Nat.add_zero]

theorem columnAfter_append (h : '\n' ∉ piece) :
    columnAfter (before ++ piece) = columnAfter before + piece.length := by
  have hpiece : ∀ c ∈ piece.reverse, (c != '\n') = true := by
    intro c hc
    rw [bne_iff_ne]
    rintro rfl
    exact h (List.mem_reverse.1 hc)
  rw [columnAfter, List.reverse_append, List.takeWhile_append_of_pos hpiece, List.length_append,
    List.length_reverse, Nat.add_comm]
  rfl

theorem columnAfter_newline (before : List Char) (h : '\n' ∉ piece) :
    columnAfter (before ++ '\n' :: piece) = piece.length := by
  have hbreak : columnAfter (before ++ ['\n']) = 0 := by
    rw [columnAfter, List.reverse_append]
    rfl
  rw [List.append_cons, columnAfter_append h, hbreak, Nat.zero_add]

/-- Only what stands behind a line feed counts for the column. -/
theorem columnAfter_append_newline (before after : List Char) :
    columnAfter (before ++ '\n' :: after) = columnAfter after := by
  rw [columnAfter, columnAfter, List.reverse_append, List.reverse_cons, List.append_assoc,
    List.takeWhile_append]
  split
  · rw [List.singleton_append, List.takeWhile_cons_of_neg (by simp), List.append_nil]
    rename_i hall
    exact hall.symm
  · rfl

/-- Behind two beginnings of one text there are different places. -/
theorem eq_of_places {before' after after' : List Char} (h : before ++ after = before' ++ after')
    (hline : lineAfter before = lineAfter before')
    (hcolumn : columnAfter before = columnAfter before') : before = before' := by
  have hextra {start piece : List Char} (hline : lineAfter (start ++ piece) = lineAfter start)
      (hcolumn : columnAfter (start ++ piece) = columnAfter start) : piece = [] := by
    have hpiece : '\n' ∉ piece := by
      rw [lineAfter, lineAfter, List.count_append] at hline
      exact List.count_eq_zero.1 (by omega)
    rw [columnAfter_append hpiece] at hcolumn
    exact List.length_eq_zero_iff.1 (by omega)
  rcases List.append_eq_append_iff.1 h with ⟨piece, rfl, -⟩ | ⟨piece, rfl, -⟩
  · rw [hextra hline.symm hcolumn.symm, List.append_nil]
  · rw [hextra hline hcolumn, List.append_nil]

/-- The characters up to the last line feed, and those on the line behind it. -/
theorem exists_split (before : List Char) : ∃ head, '\n' ∉ head ∧ columnAfter before = head.length ∧
    (before = head ∧ lineAfter before = 1 ∨
      ∃ earlier, before = earlier ++ '\n' :: head ∧ lineAfter before = earlier.count '\n' + 2) := by
  by_cases hmem : '\n' ∈ before
  · obtain ⟨head, earlier, hsplit, hhead⟩ := List.eq_append_cons_of_mem (List.mem_reverse.2 hmem)
    have hbefore : before = earlier.reverse ++ '\n' :: head.reverse := by
      rw [← List.reverse_reverse before, hsplit]
      simp
    have hhead' : '\n' ∉ head.reverse := by rwa [List.mem_reverse]
    refine ⟨head.reverse, hhead', ?_, .inr ⟨earlier.reverse, hbefore, ?_⟩⟩
    · rw [hbefore, columnAfter_newline _ hhead']
    · rw [hbefore, lineAfter, List.count_append, List.count_cons_self, List.count_eq_zero.2 hhead']
  · refine ⟨before, hmem, ?_, .inl ⟨rfl, ?_⟩⟩
    · have hcolumn : columnAfter ([] ++ before) = 0 + before.length := columnAfter_append hmem
      rwa [List.nil_append, Nat.zero_add] at hcolumn
    · rw [lineAfter, List.count_eq_zero.2 hmem]

/-- The first line of a text goes on with all that stands on it, but for a carriage return. -/
theorem exists_first_line {text : List Char} (after : List Char) (hne : text ≠ [])
    (hline : '\n' ∉ text) (hlast : text.getLast? ≠ some '\r') :
    ∃ rest, (lines (text ++ after))[0]? = some (text ++ rest) := by
  induction text with
  | nil => exact absurd rfl hne
  | cons c text ih =>
    obtain ⟨hc, htext⟩ := not_or.1 (mt List.mem_cons.2 hline)
    have hreturn : ∀ others, c = '\r' → text ++ after = '\n' :: others → False := by
      intro others hcr hnewline
      cases text with
      | nil => exact hlast (by rw [hcr]; rfl)
      | cons next text =>
        rw [List.cons_append] at hnewline
        exact htext (by rw [(List.cons.inj hnewline).1]; exact List.mem_cons_self)
    rw [List.cons_append, lines.eq_4 c _ (Ne.symm hc) hreturn]
    cases text with
    | nil => cases lines ([] ++ after) <;> simp
    | cons next text =>
      rw [List.getLast?_cons_cons] at hlast
      obtain ⟨rest, hrest⟩ := ih (List.cons_ne_nil _ _) htext hlast
      generalize lines (next :: text ++ after) = found at hrest
      cases found with
      | nil => cases hrest
      | cons line others => exact ⟨rest, by simpa using hrest⟩

/-- A part of one line of a text is found at its place in that line. -/
theorem exists_line?_of_append {source : String} {after : List Char}
    (h : source.toList = before ++ (piece ++ after)) (hne : piece ≠ []) (hline : '\n' ∉ piece)
    (hlast : piece.getLast? ≠ some '\r') : ∃ line, line? source (lineAfter before) = some line ∧
      piece <+: line.toList.drop (columnAfter before) := by
  obtain ⟨head, hhead, hcolumn, hsplit⟩ := exists_split before
  have hlast' : (head ++ piece).getLast? ≠ some '\r' := by
    rw [List.getLast?_append, List.getLast?_eq_some_getLast hne, Option.some_or]
    rwa [List.getLast?_eq_some_getLast hne] at hlast
  obtain ⟨rest, hrest⟩ := exists_first_line after (List.append_ne_nil_of_right_ne_nil head hne)
    (by simp [hhead, hline]) hlast'
  refine ⟨String.ofList (head ++ piece ++ rest), ?_, ?_⟩
  · obtain ⟨rfl, hnumber⟩ | ⟨earlier, rfl, hnumber⟩ := hsplit
    · rw [hnumber, line?, h, ← List.append_assoc, hrest]
      rfl
    · rw [hnumber, line?, h, List.append_assoc, List.cons_append, getElem?_lines,
        ← List.append_assoc, hrest]
      rfl
  · rw [hcolumn, String.toList_ofList, List.append_assoc, List.drop_left]
    exact List.prefix_append piece rest

end Offside.Text
