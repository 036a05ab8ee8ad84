import Offside.Token.Stream

/-!
# The class that a text has

Parsers tell punctuation and the two truth values by their text alone. On the tokens of a scanner
that settles their class as well (`Token.Proper`): no string and no name is spelled like a comma.
`Token.Kind.eq_of_cut?` is the reason: what a pattern cuts off fits the pattern (`Pattern.fits`),
and of the patterns that a mark fits, each gives it the class in `Token.marks`.
-/

namespace Offside

/-- The texts that parsers look for whatever the class of the token, with their classes. -/
def Token.marks : List (String × Token.Kind) :=
  [("(", .leftParen), (")", .rightParen), ("::", .special), (":", .special), ("->", .special),
    (",", .special), ("[", .special), ("]", .special), ("\x7b", .special), ("\x7d", .special),
    ("=", .special), ("true", .keyword), ("false", .keyword)]

/-- A token whose class is the one that its text has. -/
def Token.Proper (token : Token) : Prop :=
  ∀ mark ∈ Token.marks, token.value = mark.1 → token.kind = mark.2

/-- A token of another class is not spelled like a mark. -/
theorem Token.Proper.value_ne {token : Token} (h : token.Proper) (mark : String × Token.Kind)
    (hkind : token.kind ≠ mark.2) (hmark : mark ∈ Token.marks := by decide) :
    token.value ≠ mark.1 :=
  fun hvalue => hkind (h mark hmark hvalue)

namespace Pattern

/-- What every piece of text that the pattern accepts is like. -/
def fits : Pattern → List Char → Bool
  | decimal, lexeme | integer, lexeme => lexeme.any Char.isDigit
  | quoted quote, lexeme => lexeme.head? == some quote
  | word first, lexeme => lexeme.head?.any first
  | literal expected, lexeme => lexeme == expected.toList

theorem fits_of_split? {pattern : Pattern} {text lexeme rest : List Char}
    (h : pattern.split? text = some (lexeme, rest)) : pattern.fits lexeme = true := by
  have hany {digits : List Char} (hdigits : IsDigits digits) : digits.any Char.isDigit = true := by
    obtain ⟨c, hc⟩ := List.exists_mem_of_ne_nil digits hdigits.ne_nil
    exact List.any_eq_true.2 ⟨c, hc, hdigits.all c hc⟩
  cases splits_of_split? h with
  | decimal _ hwhole => simp [fits, hany hwhole]
  | integer _ hdigits => simp [fits, hany hdigits]
  | quoted => simp [fits]
  | word hfirst => simpa [fits] using hfirst
  | literal => simp [fits]

/-- Every pattern that a mark fits gives it its class. -/
theorem ofText_eq_of_fits : ∀ row ∈ table, ∀ mark ∈ Token.marks,
    row.1.fits mark.1.toList = true → row.2.ofText mark.1 = mark.2 := by
  decide +kernel

end Pattern

namespace Token

/-- Where a token is cut off, its pattern and its class are a row of the table. -/
theorem exists_row_of_cut? {text rest : List Char} {kind : Kind} {value : String}
    (h : cut? text = some (kind, value, rest)) :
    ∃ row ∈ Pattern.table, row.1.split? text = some (value.toList, rest) ∧
      kind = row.2.ofText value := by
  obtain ⟨⟨pattern, class'⟩, hmem, h⟩ := List.exists_of_findSome?_eq_some h
  obtain ⟨⟨lexeme, _⟩, hsplit, heq⟩ := Option.map_eq_some_iff.1 h
  cases heq
  exact ⟨_, hmem, by simpa using hsplit, rfl⟩

theorem Kind.eq_of_cut? {text rest : List Char} {kind : Kind} {value : String}
    (h : cut? text = some (kind, value, rest)) :
    ∀ mark ∈ marks, value = mark.1 → kind = mark.2 := by
  rintro mark hmark rfl
  obtain ⟨row, hrow, hsplit, rfl⟩ := exists_row_of_cut? h
  exact Pattern.ofText_eq_of_fits row hrow mark hmark (Pattern.fits_of_split? hsplit)

/-- Of the classes that patterns give, a text can only change that of a name. -/
theorem exists_row_of_class {text rest : List Char} {kind : Kind} {value : String}
    (h : cut? text = some (kind, value, rest)) (hkind : kind ≠ .keyword) :
    ∃ row ∈ Pattern.table, row.2 = kind ∧ row.1.split? text = some (value.toList, rest) := by
  obtain ⟨row, hrow, hsplit, rfl⟩ := exists_row_of_cut? h
  refine ⟨row, hrow, ?_, hsplit⟩
  unfold Kind.ofText at hkind ⊢
  split
  · rename_i hword
    exact absurd (if_pos hword) hkind
  · rfl

/-- Only a closing parenthesis is of the class of one. -/
theorem value_of_cut?_rightParen {text rest : List Char} {value : String}
    (h : cut? text = some (.rightParen, value, rest)) : value = ")" := by
  have htable : ∀ row ∈ Pattern.table, row.2 = .rightParen → row.1 = .literal ")" := by
    simp [Pattern.table]
  obtain ⟨row, hrow, hclass, hsplit⟩ := exists_row_of_class h (by decide)
  have hfits := Pattern.fits_of_split? hsplit
  rw [htable row hrow hclass] at hfits
  exact String.toList_inj.1 (eq_of_beq hfits)

/-- No pattern is for white space or for the end of the text. -/
theorem Kind.isSynthetic_of_cut? {text rest : List Char} {kind : Kind} {value : String}
    (h : cut? text = some (kind, value, rest)) : kind.isSynthetic = false := by
  obtain ⟨row, hrow, -, rfl⟩ := exists_row_of_cut? h
  have hclass : ∀ row ∈ Pattern.table, row.2.isSynthetic = false := by decide +kernel
  unfold Kind.ofText
  split
  · rfl
  · exact hclass row hrow

end Token

end Offside
