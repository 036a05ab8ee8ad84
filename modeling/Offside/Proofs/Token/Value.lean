import Offside.Proofs.Text.Integer
import Offside.Proofs.Token.Longest

/-!
# What tokens say

The tokens that carry a value (`Token.isContent`) are those of literals, of operators, and of names;
the others only give a text its shape. `Token.leaf?` is the value of a token. `Token.Says` gives it by
the characters of the token alone: a numeral by its digits, a string by what stands between its marks.
A token that a scanner delivers says its value (`Token.Delivered.says`).
-/

namespace Offside

/-- The value of a token. Names are told apart by their class. -/
inductive Leaf where
  | int (value : Int64)
  | float (value : Binary64)
  /-- The text of a string without the marks around it. -/
  | string (text : String)
  | bool (value : Bool)
  | operator (text : String)
  | constant (name : String)
  | identifier (name : String)
deriving DecidableEq

namespace Token

open Pattern (IsSign IsDigits)

/-- Whether a token carries a value. -/
def isContent (token : Token) : Bool :=
  match token.kind with
  | .integer | .float | .string | .operator | .constant | .identifier => true
  | .keyword => token.value == "true" || token.value == "false"
  | _ => false

/-- The value that a token carries. Only a number that is out of range has none. A string is without
its first and its last character. -/
def leaf? (token : Token) : Option Leaf :=
  match token.kind with
  | .integer => (Text.int64OfText? token.value).map .int
  | .float => (Binary64.ofText? token.value).map .float
  | .string => some (.string (String.ofList token.value.toList.tail.dropLast))
  | .operator => some (.operator token.value)
  | .constant => some (.constant token.value)
  | .identifier => some (.identifier token.value)
  | .keyword => some (.bool (token.value == "true"))
  | _ => none

/-- The values of the tokens that carry one. -/
def leaves (tokens : List Token) : List (Option Leaf) :=
  (tokens.filter isContent).map leaf?

/-- What a token says by its class and its characters. The digits of a number with a point are those of
a whole number, divided by a power of ten. -/
inductive Says (token : Token) : Leaf → Prop
  | int {sign digits suffix : List Char} {value : Int64} (hkind : token.kind = .integer)
    (htext : token.value.toList = sign ++ (digits ++ suffix)) (hsign : IsSign sign)
    (hdigits : IsDigits digits) (hsuffix : suffix = [] ∨ suffix = ['L'])
    (hvalue : value.toInt = Text.numeralValue sign digits) : Says token (.int value)
  | float {sign whole fraction : List Char} (hkind : token.kind = .float)
    (htext : token.value.toList = sign ++ (whole ++ '.' :: fraction)) (hsign : IsSign sign)
    (hwhole : IsDigits whole) (hfraction : IsDigits fraction) :
    Says token (.float
      (.ofRatio (sign == ['-']) (Text.decimalValue (whole ++ fraction)) (10 ^ fraction.length)))
  | string {quote : Char} {body : List Char} (hkind : token.kind = .string)
    (hquote : quote = '"' ∨ quote = '\'')
    (htext : token.value.toList = quote :: (body ++ [quote])) :
    Says token (.string (String.ofList body))
  | bool {value : Bool} (hkind : token.kind = .keyword)
    (htext : token.value = if value then "true" else "false") : Says token (.bool value)
  | operator (hkind : token.kind = .operator) : Says token (.operator token.value)
  | constant (hkind : token.kind = .constant) : Says token (.constant token.value)
  | identifier (hkind : token.kind = .identifier) : Says token (.identifier token.value)

/-! ## The text of a token -/

section

variable {text rest : List Char} {value : String}

/-- Only numerals without a point are of the class of integers. -/
theorem exists_numeral_of_cut? (h : cut? text = some (.integer, value, rest)) :
    ∃ sign digits suffix, value.toList = sign ++ (digits ++ suffix) ∧ IsSign sign ∧
      IsDigits digits ∧ (suffix = [] ∨ suffix = ['L']) := by
  have htable : ∀ row ∈ Pattern.table, row.2 = .integer → row.1 = .integer := by
    simp [Pattern.table]
  obtain ⟨row, hrow, hclass, hsplit⟩ := exists_row_of_class h (by decide)
  rw [htable row hrow hclass] at hsplit
  generalize value.toList = lexeme at hsplit
  cases Pattern.splits_integer hsplit with
  | integer hsign hdigits hsuffix => exact ⟨_, _, _, rfl, hsign, hdigits, hsuffix⟩

/-- Only numerals with a point are of the class of floating-point numbers. -/
theorem exists_decimal_of_cut? (h : cut? text = some (.float, value, rest)) :
    ∃ sign whole fraction, value.toList = sign ++ (whole ++ '.' :: fraction) ∧ IsSign sign ∧
      IsDigits whole ∧ IsDigits fraction := by
  have htable : ∀ row ∈ Pattern.table, row.2 = .float → row.1 = .decimal := by
    simp [Pattern.table]
  obtain ⟨row, hrow, hclass, hsplit⟩ := exists_row_of_class h (by decide)
  rw [htable row hrow hclass] at hsplit
  generalize value.toList = lexeme at hsplit
  cases Pattern.splits_decimal hsplit with
  | decimal hsign hwhole hfraction => exact ⟨_, _, _, rfl, hsign, hwhole, hfraction⟩

/-- Only what stands between two marks is of the class of strings. -/
theorem exists_quoted_of_cut? (h : cut? text = some (.string, value, rest)) :
    ∃ quote body, (quote = '"' ∨ quote = '\'') ∧ value.toList = quote :: (body ++ [quote]) := by
  have htable : ∀ row ∈ Pattern.table, row.2 = .string →
      ∃ quote, (quote = '"' ∨ quote = '\'') ∧ row.1 = .quoted quote := by
    simp [Pattern.table]
  obtain ⟨row, hrow, hclass, hsplit⟩ := exists_row_of_class h (by decide)
  obtain ⟨quote, hquote, hpattern⟩ := htable row hrow hclass
  rw [hpattern] at hsplit
  generalize value.toList = lexeme at hsplit
  cases Pattern.splits_of_split? hsplit with
  | quoted hbody =>
    obtain ⟨-, body, -, rfl⟩ := Pattern.exists_quotable_of_splitQuoted hbody
    exact ⟨quote, body, hquote, rfl⟩

end

end Token

theorem Binary64.ofText?_decimal {sign whole fraction : List Char} (hsign : Pattern.IsSign sign)
    (hwhole : Pattern.IsDigits whole) (hfraction : Pattern.IsDigits fraction) :
    ofText? (String.ofList (sign ++ (whole ++ '.' :: fraction))) = some
      (ofRatio (sign == ['-']) (Text.decimalValue (whole ++ fraction)) (10 ^ fraction.length)) := by
  have hpoint : ∀ c ∈ ('.' :: fraction).head?, c.isDigit = false := by simp
  obtain ⟨htake, hdrop⟩ := Text.takeWhile_dropWhile_append hwhole.all hpoint
  rw [ofText?, String.toList_ofList, Pattern.splitSign_of_isSign hsign hwhole]
  simp only [htake, hdrop]
  rw [if_pos (by simp [List.all_eq_true.2 hfraction.all, hwhole.ne_nil])]
  rfl

/-- The mark before a text and the one after it are its first and its last character. -/
theorem Grammar.unquoted_eq (text : String) :
    unquoted text = String.ofList text.toList.tail.dropLast := by
  rw [unquoted, List.drop_one]

/-! ## The value of a token -/

namespace Token

variable {token : Token} {tokens : List Token} {leaf : Leaf}

/-- The value of a token that carries one is what its characters say. -/
theorem Delivered.says (h : token.Delivered) (hcontent : token.isContent = true)
    (hleaf : token.leaf? = some leaf) : token.Says leaf := by
  have hcut {kind : Kind} (hkind : token.kind = kind) (hplain : kind.isSynthetic = false) :
      cut? token.value.toList = some (kind, token.value, []) :=
    hkind ▸ h.cut?_of_plain (hkind ▸ hplain)
  cases hkind : token.kind with
  | integer =>
    obtain ⟨sign, digits, suffix, htext, hsign, hdigits, hsuffix⟩ :=
      exists_numeral_of_cut? (hcut hkind rfl)
    have hread := Text.int64OfText?_numeral hsign hdigits hsuffix
    rw [← htext, String.ofList_toList] at hread
    rw [leaf?, hkind] at hleaf
    dsimp only at hleaf
    obtain ⟨value, hvalue, rfl⟩ := Option.map_eq_some_iff.1 hleaf
    rw [hread] at hvalue
    obtain ⟨⟨hlow, hhigh⟩, rfl⟩ := Option.ite_some_none_eq_some.1 hvalue
    exact .int hkind htext hsign hdigits hsuffix (Int64.toInt_ofInt_of_le hlow (by omega))
  | float =>
    obtain ⟨sign, whole, fraction, htext, hsign, hwhole, hfraction⟩ :=
      exists_decimal_of_cut? (hcut hkind rfl)
    have hread := Binary64.ofText?_decimal hsign hwhole hfraction
    rw [← htext, String.ofList_toList] at hread
    rw [leaf?, hkind] at hleaf
    dsimp only at hleaf
    rw [hread] at hleaf
    cases hleaf
    exact .float hkind htext hsign hwhole hfraction
  | string =>
    obtain ⟨quote, body, hquote, htext⟩ := exists_quoted_of_cut? (hcut hkind rfl)
    rw [leaf?, hkind] at hleaf
    dsimp only at hleaf
    rw [htext, List.tail_cons, List.dropLast_concat] at hleaf
    cases hleaf
    exact .string hkind hquote htext
  | keyword =>
    rw [leaf?, hkind] at hleaf
    cases hleaf
    refine .bool hkind ?_
    simp only [isContent, hkind, Bool.or_eq_true, beq_iff_eq] at hcontent
    obtain hvalue | hvalue := hcontent <;> simp [hvalue]
  | operator =>
    rw [leaf?, hkind] at hleaf
    cases hleaf
    exact .operator hkind
  | constant =>
    rw [leaf?, hkind] at hleaf
    cases hleaf
    exact .constant hkind
  | identifier =>
    rw [leaf?, hkind] at hleaf
    cases hleaf
    exact .identifier hkind
  | _ =>
    rw [leaf?, hkind] at hleaf
    cases hleaf

/-! ## The leaves of tokens -/

theorem leaves_cons_of_isContent (h : token.isContent = true) :
    leaves (token :: tokens) = token.leaf? :: leaves tokens := by
  rw [leaves, List.filter_cons_of_pos h, List.map_cons, leaves]

theorem leaves_cons_of_not_isContent (h : token.isContent = false) :
    leaves (token :: tokens) = leaves tokens := by
  rw [leaves, List.filter_cons_of_neg (by simp [h]), leaves]

theorem leaves_constant (h : token.kind = .constant) :
    leaves (token :: tokens) = some (.constant token.value) :: leaves tokens := by
  rw [leaves_cons_of_isContent (by simp [isContent, h])]
  simp [leaf?, h]

theorem leaves_identifier (h : token.kind = .identifier) :
    leaves (token :: tokens) = some (.identifier token.value) :: leaves tokens := by
  rw [leaves_cons_of_isContent (by simp [isContent, h])]
  simp [leaf?, h]

theorem leaves_operator (h : token.kind = .operator) :
    leaves (token :: tokens) = some (.operator token.value) :: leaves tokens := by
  rw [leaves_cons_of_isContent (by simp [isContent, h])]
  simp [leaf?, h]

/-- Keywords other than the truth values carry no value. -/
theorem leaves_keyword {text : String} (h : token.isKeyword text = true)
    (htext : text ≠ "true" ∧ text ≠ "false" := by decide) :
    leaves (token :: tokens) = leaves tokens := by
  obtain ⟨hkind, hvalue⟩ : token.kind = .keyword ∧ token.value = text := by
    simpa [isKeyword] using h
  exact leaves_cons_of_not_isContent (by simp [isContent, hkind, hvalue, htext])

/-- Punctuation and white space carry no value. -/
theorem leaves_shape
    (h : token.kind ∈ [.leftParen, .rightParen, .special, .indent, .outdent, .newline]) :
    leaves (token :: tokens) = leaves tokens := by
  refine leaves_cons_of_not_isContent ?_
  revert h
  cases hkind : token.kind <;> simp [isContent, hkind]

theorem leaves_mark (hproper : token.Proper) (mark : String × Kind) (hvalue : token.value = mark.1)
    (hmark : mark ∈ marks := by decide)
    (hkind : mark.2 ∈ [Kind.leftParen, .rightParen, .special] := by decide) :
    leaves (token :: tokens) = leaves tokens := by
  refine leaves_shape ?_
  rw [hproper mark hmark hvalue]
  revert hkind
  cases mark.2 <;> simp

theorem leaves_dropWhile (tokens : List Token) :
    leaves (tokens.dropWhile isNewline) = leaves tokens := by
  induction tokens with
  | nil => rfl
  | cons token tokens ih =>
    by_cases hnewline : token.isNewline = true
    · have hkind : token.kind = .newline := beq_iff_eq.1 hnewline
      rw [List.dropWhile_cons_of_pos hnewline, ih, leaves_shape (by simp [hkind])]
    · rw [List.dropWhile_cons_of_neg hnewline]

end Token

end Offside
