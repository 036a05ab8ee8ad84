import Offside.Text.Lines

/-!
# The indentation of lines

`Text.indentation` is the number of spaces before the text of a line. `Text.indentation_eq` finds it
in the characters of a text: a line is what follows a line feed, and its number is one more than the
line feeds up to there.
-/

namespace Offside.Text

/-- The number of spaces at the beginning of a line. Those of the first line do not count. -/
def indentation (source : String) (number : Nat) : Nat :=
  if number = 1 then 0
  else (((line? source number).getD "").toList.takeWhile (· == ' ')).length

/-- The number of spaces at the beginning of a text. -/
def leading (text : List Char) : Nat :=
  (((lines text)[0]?.getD []).takeWhile (· == ' ')).length

theorem leading_space (text : List Char) : leading (' ' :: text) = leading text + 1 := by
  rw [leading, leading, lines.eq_4 _ _ (by decide) fun _ h => absurd h (by decide)]
  cases lines text <;> simp

theorem leading_of_ne {c : Char} {text : List Char} (h : c ≠ ' ') : leading (c :: text) = 0 := by
  have hhead : (lines (c :: text))[0]?.getD [] = [] ∨
      ∃ line, (lines (c :: text))[0]?.getD [] = c :: line := by
    unfold lines
    split
    · rename_i heq
      cases heq
    · exact .inl rfl
    · exact .inl rfl
    · rename_i heq
      cases heq
      split
      · exact .inr ⟨[], rfl⟩
      · exact .inr ⟨_, rfl⟩
  rw [leading]
  obtain hnil | ⟨line, hline⟩ := hhead
  · rw [hnil]
    rfl
  · rw [hline, List.takeWhile_cons_of_neg (by simpa using h)]
    rfl

/-- A character that is not part of a line break belongs to the line behind it. -/
theorem getElem?_lines_cons {c : Char} {rest : List Char} (index : Nat) (hnewline : c ≠ '\n')
    (hreturn : ∀ others, c = '\r' → rest = '\n' :: others → False) :
    (lines (c :: rest))[index + 1]? = (lines rest)[index + 1]? := by
  rw [lines.eq_4 c rest hnewline hreturn]
  cases lines rest <;> simp

/-- After a line feed the lines are those of the text behind it. -/
theorem getElem?_lines (before text : List Char) :
    (lines (before ++ '\n' :: text))[before.count '\n' + 1]? = (lines text)[0]? := by
  have hordinary (c : Char) (rest : List Char) (hnewline : c ≠ '\n')
      (hreturn : ∀ others, c = '\r' → rest = '\n' :: others → False)
      (ih : (lines (rest ++ '\n' :: text))[rest.count '\n' + 1]? = (lines text)[0]?) :
      (lines (c :: rest ++ '\n' :: text))[(c :: rest).count '\n' + 1]? = (lines text)[0]? := by
    rw [List.cons_append, List.count_cons_of_ne hnewline]
    cases rest with
    | nil =>
      by_cases hcr : c = '\r'
      · rw [hcr, List.nil_append, lines]
        rfl
      · rw [getElem?_lines_cons _ hnewline fun _ h => absurd h hcr]
        exact ih
    | cons next rest =>
      rw [getElem?_lines_cons _ hnewline fun others h heq => ?_]
      · exact ih
      · rw [List.cons_append] at heq
        cases heq
        exact hreturn rest h rfl
  fun_induction lines before with
  | case1 => rw [List.nil_append, lines]; rfl
  | case2 rest ih =>
    rw [List.cons_append, lines, List.count_cons_self]
    exact ih
  | case3 rest ih =>
    rw [List.cons_append, List.cons_append, lines, List.count_cons_of_ne (by decide),
      List.count_cons_self]
    exact ih
  | case4 c rest hnewline hreturn _ ih => exact hordinary c rest hnewline hreturn ih
  | case5 c rest hnewline hreturn _ _ _ ih => exact hordinary c rest hnewline hreturn ih

/-- The indentation of a line further down is found behind the line feed before it. -/
theorem indentation_eq {source : String} {before text : List Char}
    (h : source.toList = before ++ '\n' :: text) :
    indentation source (before.count '\n' + 2) = leading text := by
  rw [indentation, if_neg (by omega), line?, h, getElem?_lines, leading]
  cases (lines text)[0]? <;> simp

end Offside.Text
