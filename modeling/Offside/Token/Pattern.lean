import Offside.Token.Basic
/-!
# Lexical patterns

A pattern says which beginnings of a text it accepts: `Pattern.split?` cuts the accepted beginning
off. `Pattern.table` lists the patterns of the language in order of priority, and `Token.cut?`
applies the first one that accepts, which also settles the class of the piece.
-/

namespace Offside

/-- A shape of text that a token may have. -/
inductive Pattern where
  /-- An optional sign, digits, a point, digits. -/
  | decimal
  /-- An optional sign, digits, an optional `L`. -/
  | integer
  /-- Text between two marks `quote` on one line, in which a backslash protects the character
  after it. -/
  | quoted (quote : Char)
  /-- A letter that satisfies `first`, then letters, digits and underscores. -/
  | word (first : Char → Bool)
  /-- Exactly this text. -/
  | literal (text : String)

namespace Pattern

/-- Letters, digits and the underscore, of the ASCII characters. -/
def isWordChar (c : Char) : Bool :=
  c.isAlphanum || c == '_'

/-- Cuts off a plus or minus sign, if there is one. -/
def splitSign : List Char → List Char × List Char
  | '+' :: rest => (['+'], rest)
  | '-' :: rest => (['-'], rest)
  | text => ([], text)

/-- Cuts off everything up to and including the mark that closes a quoted text. -/
def splitQuoted (quote : Char) : List Char → Option (List Char × List Char)
  | [] => none
  | '\\' :: [] => none
  | '\\' :: c :: rest =>
    if c = '\n' then none
    else (splitQuoted quote rest).map fun (body, rest) => ('\\' :: c :: body, rest)
  | c :: rest =>
    if c = quote then some ([c], rest)
    else if c = '\n' then none
    else (splitQuoted quote rest).map fun (body, rest) => (c :: body, rest)

/-- The longest beginning of the text that the pattern accepts, and the text after it. -/
def split? (pattern : Pattern) (text : List Char) : Option (List Char × List Char) :=
  match pattern with
  | decimal =>
    let (sign, unsigned) := splitSign text
    let whole := unsigned.takeWhile Char.isDigit
    match unsigned.dropWhile Char.isDigit with
    | '.' :: rest =>
      let fraction := rest.takeWhile Char.isDigit
      if whole.isEmpty || fraction.isEmpty then none
      else some (sign ++ whole ++ '.' :: fraction, rest.dropWhile Char.isDigit)
    | _ => none
  | integer =>
    let (sign, unsigned) := splitSign text
    let digits := unsigned.takeWhile Char.isDigit
    if digits.isEmpty then none
    else
      match unsigned.dropWhile Char.isDigit with
      | 'L' :: rest => some (sign ++ digits ++ ['L'], rest)
      | rest => some (sign ++ digits, rest)
  | quoted quote =>
    match text with
    | c :: rest =>
      if c = quote then
        (splitQuoted quote rest).map fun (body, rest) => (quote :: body, rest)
      else none
    | [] => none
  | word first =>
    match text with
    | c :: rest =>
      if first c then some (c :: rest.takeWhile isWordChar, rest.dropWhile isWordChar)
      else none
    | [] => none
  | literal expected =>
    let lexeme := expected.toList
    if lexeme <+: text then some (lexeme, text.drop lexeme.length) else none

/-- The patterns of the language with the classes of their tokens. The first that accepts is taken,
so a longer spelling stands before its own beginning. -/
def table : List (Pattern × Token.Kind) :=
  [(decimal, .float),
    (integer, .integer),
    (quoted '"', .string),
    (quoted '\'', .string),
    (literal "(", .leftParen),
    (literal ")", .rightParen),
    (literal "::", .special),
    (literal ":", .special),
    (literal "->", .special),
    (literal ",", .special),
    (literal "[", .special),
    (literal "]", .special),
    (literal "\x7b", .special),
    (literal "\x7d", .special),
    (literal "+", .operator),
    (literal "/", .operator),
    (literal "-", .operator),
    (literal "*", .operator),
    (literal ".", .operator),
    (literal "%", .operator),
    (literal "&&", .operator),
    (literal "&", .operator),
    (literal "||", .operator),
    (literal ">=", .operator),
    (literal ">", .operator),
    (literal "<=", .operator),
    (literal "<", .operator),
    (word Char.isUpper, .constant),
    (word fun c => c.isAlpha || c == '_', .identifier),
    (literal "==", .operator),
    (literal "=", .special),
    (literal "!=", .operator),
    (literal "|", .special)]

/-! ## What a pattern cuts off -/

theorem splitSign_append (text : List Char) : (splitSign text).1 ++ (splitSign text).2 = text := by
  unfold splitSign; split <;> rfl

theorem eq_append_of_splitQuoted {quote : Char} {text body rest : List Char}
    (h : splitQuoted quote text = some (body, rest)) : text = body ++ rest := by
  fun_induction splitQuoted quote text generalizing body rest with
  | case1 => simp at h
  | case2 => simp at h
  | case3 => simp at h
  | case4 c tail hc ih =>
    obtain ⟨_, htail, heq⟩ := Option.map_eq_some_iff.1 h
    cases heq
    simp [ih htail]
  | case5 tail => cases h; rfl
  | case6 => simp at h
  | case7 c tail _ _ hquote hc ih =>
    obtain ⟨_, htail, heq⟩ := Option.map_eq_some_iff.1 h
    cases heq
    simp [ih htail]

/-- A plus or minus sign, or none. -/
def IsSign (sign : List Char) : Prop :=
  sign = [] ∨ sign = ['+'] ∨ sign = ['-']

/-- At least one digit. -/
structure IsDigits (digits : List Char) : Prop where
  ne_nil : digits ≠ []
  all : ∀ c ∈ digits, c.isDigit = true

theorem isSign_splitSign (text : List Char) : IsSign (splitSign text).1 := by
  unfold splitSign
  split
  · exact .inr (.inl rfl)
  · exact .inr (.inr rfl)
  · exact .inl rfl

theorem isDigits_takeWhile {text : List Char} (h : text.takeWhile Char.isDigit ≠ []) :
    IsDigits (text.takeWhile Char.isDigit) :=
  ⟨h, List.all_eq_true.1 (List.all_takeWhile ..)⟩

/-- What a pattern cuts off which text, and what is left of that: one shape for each pattern. -/
inductive Splits : Pattern → List Char → List Char → List Char → Prop
  | decimal {sign whole fraction rest : List Char} (hsign : IsSign sign) (hwhole : IsDigits whole)
      (hfraction : IsDigits fraction) :
    Splits decimal (sign ++ (whole ++ '.' :: (fraction ++ rest)))
      (sign ++ (whole ++ '.' :: fraction)) rest
  | integer {sign digits suffix rest : List Char} (hsign : IsSign sign) (hdigits : IsDigits digits)
      (hsuffix : suffix = [] ∨ suffix = ['L']) :
    Splits integer (sign ++ (digits ++ (suffix ++ rest))) (sign ++ (digits ++ suffix)) rest
  | quoted {quote : Char} {text body rest : List Char}
      (hbody : splitQuoted quote text = some (body, rest)) :
    Splits (quoted quote) (quote :: text) (quote :: body) rest
  | word {first : Char → Bool} {c : Char} {text : List Char} (hfirst : first c = true) :
    Splits (word first) (c :: text) (c :: text.takeWhile isWordChar) (text.dropWhile isWordChar)
  | literal {expected : String} {rest : List Char} :
    Splits (literal expected) (expected.toList ++ rest) expected.toList rest

theorem splits_decimal {text lexeme rest : List Char}
    (h : decimal.split? text = some (lexeme, rest)) : Splits decimal text lexeme rest := by
  simp only [split?] at h
  split at h
  · rename_i tail hpoint
    split at h
    · cases h
    · rename_i hdigits
      rw [Bool.or_eq_true, not_or, List.isEmpty_iff, List.isEmpty_iff] at hdigits
      cases h
      have hsplits := @Splits.decimal _ _ _ (tail.dropWhile Char.isDigit) (isSign_splitSign text)
        (isDigits_takeWhile hdigits.1) (isDigits_takeWhile hdigits.2)
      rw [List.takeWhile_append_dropWhile, ← hpoint, List.takeWhile_append_dropWhile,
        splitSign_append] at hsplits
      rw [List.append_assoc]
      exact hsplits
  · cases h

theorem splits_integer {text lexeme rest : List Char}
    (h : integer.split? text = some (lexeme, rest)) : Splits integer text lexeme rest := by
  simp only [split?] at h
  split at h
  · cases h
  · rename_i hdigits
    rw [List.isEmpty_iff] at hdigits
    have hsplits {suffix others : List Char} (hsuffix : suffix = [] ∨ suffix = ['L'])
        (hothers : (splitSign text).2.dropWhile Char.isDigit = suffix ++ others) :
        Splits integer text
          ((splitSign text).1 ++ ((splitSign text).2.takeWhile Char.isDigit ++ suffix)) others := by
      have h := @Splits.integer _ _ _ others (isSign_splitSign text) (isDigits_takeWhile hdigits)
        hsuffix
      rwa [← hothers, List.takeWhile_append_dropWhile, splitSign_append] at h
    split at h
    · rename_i tail hlong
      cases h
      rw [List.append_assoc]
      exact hsplits (.inr rfl) hlong
    · cases h
      simpa using hsplits (.inl rfl) rfl

theorem splits_of_split? {pattern : Pattern} {text lexeme rest : List Char}
    (h : pattern.split? text = some (lexeme, rest)) : Splits pattern text lexeme rest := by
  cases pattern with
  | decimal => exact splits_decimal h
  | integer => exact splits_integer h
  | quoted quote =>
    simp only [split?] at h
    split at h
    · split at h
      · rename_i hquote
        obtain ⟨⟨body, others⟩, hbody, heq⟩ := Option.map_eq_some_iff.1 h
        cases heq
        rw [hquote]
        exact .quoted hbody
      · cases h
    · cases h
  | word first =>
    simp only [split?] at h
    split at h
    · split at h
      · rename_i hfirst
        cases h
        exact .word hfirst
      · cases h
    · cases h
  | literal expected =>
    simp only [split?] at h
    split at h
    · rename_i hbegins
      cases h
      obtain ⟨others, rfl⟩ := hbegins
      rw [List.drop_left]
      exact .literal
    · cases h

/-- A pattern cuts a text in two and loses none of it. -/
theorem eq_append_of_split? {pattern : Pattern} {text lexeme rest : List Char}
    (h : pattern.split? text = some (lexeme, rest)) : text = lexeme ++ rest := by
  cases splits_of_split? h with
  | decimal => simp
  | integer => simp
  | quoted hbody => rw [eq_append_of_splitQuoted hbody, List.cons_append]
  | word => simp
  | literal => rfl

/-- What a pattern accepts is empty only where the pattern is the empty literal. -/
theorem lexeme_ne_nil_of_split? {pattern : Pattern} {text lexeme rest : List Char}
    (h : pattern.split? text = some (lexeme, rest)) (hp : pattern ≠ .literal "") :
    lexeme ≠ [] := by
  cases splits_of_split? h with
  | decimal => simp
  | integer _ hdigits => simp [hdigits.ne_nil]
  | quoted => simp
  | word => simp
  | literal => simpa [String.toList_eq_nil_iff] using hp

end Pattern

/-- The class of a piece of text that a pattern of class `kind` accepted. -/
def Token.Kind.ofText (kind : Token.Kind) (text : String) : Token.Kind :=
  if kind = .identifier ∧ text ∈ Token.reserved then .keyword else kind

/-- The class and the text of the token at the beginning of `text`, and what follows it. Nothing is
cut off when no pattern accepts. -/
def Token.cut? (text : List Char) : Option (Token.Kind × String × List Char) :=
  Pattern.table.findSome? fun (pattern, kind) =>
    (pattern.split? text).map fun (lexeme, rest) =>
      let value := String.ofList lexeme
      (kind.ofText value, value, rest)

/-- Every token takes a character off the text. -/
theorem Token.length_lt_of_cut? {text rest : List Char} {kind : Kind} {value : String}
    (h : cut? text = some (kind, value, rest)) : rest.length < text.length := by
  obtain ⟨⟨pattern, kind⟩, hmem, h⟩ := List.exists_of_findSome?_eq_some h
  obtain ⟨⟨lexeme, _⟩, hsplit, heq⟩ := Option.map_eq_some_iff.1 h
  cases heq
  have hp : pattern ≠ .literal "" := by
    rintro rfl
    simp [Pattern.table] at hmem
  have := List.length_pos_iff.2 (Pattern.lexeme_ne_nil_of_split? hsplit hp)
  rw [Pattern.eq_append_of_split? hsplit, List.length_append]
  omega

end Offside
