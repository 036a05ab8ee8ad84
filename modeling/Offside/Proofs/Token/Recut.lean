import Offside.Proofs.Token.Cut

/-!
# Tokens by themselves

The text of a token alone is cut off whole, as a token of the same class, and so it is before white
space (`Token.cut?_value`). The pattern that cut it off accepts all of it (`Pattern.split?_lexeme`).
A pattern that stands before this one in the table does not: it would accept the longer text as well
(`Pattern.isSome_split?_append`), and would have been first there.
-/

namespace Offside

namespace Pattern

variable {text lexeme rest sign digits : List Char}

/-! ## Numerals -/

theorem split?_decimal {whole fraction : List Char} (hsign : IsSign sign) (hwhole : IsDigits whole)
    (hfraction : IsDigits fraction) (more : List Char) :
    decimal.split? (sign ++ (whole ++ '.' :: (fraction ++ more))) =
      some (sign ++ (whole ++ '.' :: (fraction ++ more.takeWhile Char.isDigit)),
        more.dropWhile Char.isDigit) := by
  have hpoint : ∀ c ∈ ('.' :: (fraction ++ more)).head?, c.isDigit = false := by simp
  obtain ⟨htake, hdrop⟩ := Text.takeWhile_dropWhile_append hwhole.all hpoint
  simp only [split?, splitSign_of_isSign hsign hwhole, htake, hdrop,
    List.takeWhile_append_of_pos hfraction.all, List.dropWhile_append_of_pos hfraction.all]
  rw [if_neg (by simp [hwhole.ne_nil, hfraction.ne_nil]), List.append_assoc]

theorem split?_integer {suffix : List Char} (hsign : IsSign sign) (hdigits : IsDigits digits)
    (hsuffix : suffix = [] ∨ suffix = ['L']) :
    integer.split? (sign ++ (digits ++ suffix)) = some (sign ++ (digits ++ suffix), []) := by
  have hstop : ∀ c ∈ suffix.head?, c.isDigit = false := by
    obtain rfl | rfl := hsuffix <;> simp
  obtain ⟨htake, hdrop⟩ := Text.takeWhile_dropWhile_append hdigits.all hstop
  simp only [split?, splitSign_of_isSign hsign hdigits, htake, hdrop]
  rw [if_neg (by simp [hdigits.ne_nil])]
  obtain rfl | rfl := hsuffix <;> simp

theorem isSome_split?_integer (hsign : IsSign sign) (hdigits : IsDigits digits) (more : List Char) :
    (integer.split? (sign ++ (digits ++ more))).isSome = true := by
  simp only [split?, splitSign_of_isSign hsign hdigits, List.takeWhile_append_of_pos hdigits.all]
  rw [if_neg (by simp [hdigits.ne_nil])]
  split <;> rfl

/-! ## Patterns and longer texts -/

variable {pattern : Pattern}

/-- A pattern that accepts a beginning of a text accepts one of every longer text. -/
theorem isSome_split?_append (h : pattern.split? text = some (lexeme, rest)) (more : List Char) :
    (pattern.split? (text ++ more)).isSome = true := by
  cases splits_of_split? h with
  | decimal hsign hwhole hfraction =>
    have hsplit := split?_decimal hsign hwhole hfraction (rest ++ more)
    simp only [List.append_assoc, List.cons_append] at hsplit ⊢
    rw [hsplit]
    rfl
  | integer hsign hdigits =>
    simpa only [List.append_assoc] using isSome_split?_integer hsign hdigits _
  | quoted hbody => simp [split?, splitQuoted_append more hbody]
  | word hfirst => simp [split?, hfirst]
  | literal => simp [split?]

/-- The text that a pattern accepts is accepted by itself. -/
theorem split?_lexeme (h : pattern.split? text = some (lexeme, rest)) :
    pattern.split? lexeme = some (lexeme, []) := by
  cases splits_of_split? h with
  | decimal hsign hwhole hfraction => simpa using split?_decimal hsign hwhole hfraction []
  | integer hsign hdigits hsuffix => exact split?_integer hsign hdigits hsuffix
  | quoted hbody =>
    have hquoted := splitQuoted_body hbody []
    rw [List.append_nil] at hquoted
    simp [split?, hquoted]
  | @word first c others hfirst =>
    have hall : ∀ c ∈ others.takeWhile isWordChar, isWordChar c = true :=
      List.all_eq_true.1 (List.all_takeWhile ..)
    have hnone : ∀ c ∈ ([] : List Char).head?, isWordChar c = false := by simp
    obtain ⟨htake, hdrop⟩ := Text.takeWhile_dropWhile_append hall hnone
    rw [List.append_nil] at htake hdrop
    simp only [split?, hfirst, if_true, htake, hdrop]
  | literal => simp [split?]

/-! ## The end of a token -/

/-- Whether the pattern rules out a carriage return at the end. -/
def closes : Pattern → Bool
  | decimal | integer => true
  | quoted quote => quote != '\r'
  | word first => !first '\r'
  | literal text => text.toList.getLast? != some '\r'

theorem IsDigits.getLast?_append (h : IsDigits digits) (before : List Char) :
    (before ++ digits).getLast? ≠ some '\r' := by
  rw [List.getLast?_append, List.getLast?_eq_some_getLast h.ne_nil, Option.some_or]
  intro heq
  have hdigit := h.all _ (List.getLast_mem h.ne_nil)
  rw [Option.some.inj heq] at hdigit
  cases hdigit

theorem getLast?_of_split? (hcloses : pattern.closes = true)
    (h : pattern.split? text = some (lexeme, rest)) : lexeme.getLast? ≠ some '\r' := by
  cases splits_of_split? h with
  | @decimal sign whole fraction _ _ _ hfraction =>
    have hlast := hfraction.getLast?_append (sign ++ (whole ++ ['.']))
    simpa using hlast
  | @integer sign digits suffix _ _ hdigits hsuffix =>
    obtain rfl | rfl := hsuffix
    · rw [List.append_nil]
      exact hdigits.getLast?_append sign
    · simp
  | quoted hbody =>
    obtain ⟨-, inner, -, rfl⟩ := exists_quotable_of_splitQuoted hbody
    simpa [List.getLast?_cons, closes] using hcloses
  | word hfirst =>
    intro heq
    rcases List.mem_cons.1 (List.mem_of_getLast? heq) with rfl | hmem
    · simp [closes, hfirst] at hcloses
    · have hword := List.all_eq_true.1 (List.all_takeWhile ..) _ hmem
      cases hword
  | literal => simpa [closes] using hcloses

theorem closes_of_mem_table : ∀ row ∈ table, row.1.closes = true := by
  decide +kernel

end Pattern

namespace Token

variable {text rest : List Char} {kind : Kind} {value : String}

/-- The text of a token is cut off by itself. -/
theorem cut?_value (h : cut? text = some (kind, value, rest)) :
    cut? value.toList = some (kind, value, []) := by
  have htext := eq_append_of_cut? h
  rw [cut?_eq, List.findSome?_eq_some_iff] at h ⊢
  obtain ⟨earlier, row, later, htable, hrow, hearlier⟩ := h
  obtain ⟨⟨lexeme, others⟩, hsplit, heq⟩ := Option.map_eq_some_iff.1 hrow
  cases heq
  rw [String.toList_ofList] at htext ⊢
  refine ⟨earlier, row, later, htable, ?_, fun first hfirst => ?_⟩
  · rw [cutBy?, Pattern.split?_lexeme hsplit]
    rfl
  · have hnone := hearlier first hfirst
    rw [cutBy?, Option.map_eq_none_iff] at hnone ⊢
    cases haccepts : first.1.split? lexeme with
    | none => rfl
    | some accepted =>
      have hsome := Pattern.isSome_split?_append haccepts rest
      rw [← htext, hnone] at hsome
      cases hsome

/-- No token ends in a carriage return. -/
theorem getLast?_of_cut? (h : cut? text = some (kind, value, rest)) :
    value.toList.getLast? ≠ some '\r' := by
  obtain ⟨row, hrow, hsplit, -⟩ := exists_row_of_cut? h
  exact Pattern.getLast?_of_split? (Pattern.closes_of_mem_table row hrow) hsplit

/-- No token begins with white space. -/
theorem exists_head_of_cut? (h : cut? text = some (kind, value, rest)) :
    ∃ c others, value.toList = c :: others ∧ c ≠ ' ' ∧ c ≠ '\n' := by
  have hvalue := cut?_value h
  cases hchars : value.toList with
  | nil =>
    rw [hchars] at hvalue
    cases hvalue
  | cons c others =>
    refine ⟨c, others, rfl, ?_, ?_⟩ <;> rintro rfl <;> rw [hchars] at hvalue <;> cases hvalue

end Token

end Offside
