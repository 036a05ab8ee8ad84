import Offside.Proofs.Token.Proper

/-!
# Tokens before other text

What is cut off a text stands on one line (`Token.newline_not_mem_of_cut?`). It is cut off too where
white space and any other text follow (`Token.cut?_append`), and where other white space follows than
did (`Token.cut?_exchange`): no pattern accepts a space outside quotes, none accepts a line feed, and
none but the quoted ones accepts a quote. Between quotes a text is read piece by piece
(`Pattern.Quotable`).
-/

namespace Offside

namespace Text

/-- The text is empty or begins with a space. -/
def Spaced (text : List Char) : Prop :=
  ∀ c ∈ text.head?, c = ' '

/-- The text is empty, or begins with a space or a line feed. -/
def Separated (text : List Char) : Prop :=
  ∀ c ∈ text.head?, c = ' ' ∨ c = '\n'

theorem Spaced.separated {text : List Char} (h : Spaced text) : Separated text :=
  fun c hc => .inl (h c hc)

theorem separated_newline (text : List Char) : Separated ('\n' :: text) := by
  simp [Separated]

theorem spaced_nil : Spaced [] := by
  simp [Spaced]

theorem spaced_cons (text : List Char) : Spaced (' ' :: text) := by
  simp [Spaced]

theorem takeWhile_append {test : Char → Bool} {more : List Char} (text : List Char)
    (hstop : ∀ c ∈ more.head?, test c = false) :
    (text ++ more).takeWhile test = text.takeWhile test := by
  have hmore : more.takeWhile test = [] := by
    cases more with
    | nil => rfl
    | cons c more => simp [hstop c rfl]
  induction text with
  | nil => exact hmore
  | cons c text ih => rw [List.cons_append, List.takeWhile_cons, List.takeWhile_cons, ih]

theorem dropWhile_append {test : Char → Bool} {more : List Char} (text : List Char)
    (hstop : ∀ c ∈ more.head?, test c = false) :
    (text ++ more).dropWhile test = text.dropWhile test ++ more := by
  have hmore : more.dropWhile test = more := by
    cases more with
    | nil => rfl
    | cons c more => simp [hstop c rfl]
  induction text with
  | nil => exact hmore
  | cons c text ih =>
    rw [List.cons_append, List.dropWhile_cons, List.dropWhile_cons, ih]
    split <;> rfl

/-- A text all of whose characters pass a test, and more that does not begin with such a one. -/
theorem takeWhile_dropWhile_append {test : Char → Bool} {text more : List Char}
    (hall : ∀ c ∈ text, test c = true) (hstop : ∀ c ∈ more.head?, test c = false) :
    (text ++ more).takeWhile test = text ∧ (text ++ more).dropWhile test = more := by
  rw [List.takeWhile_append_of_pos hall, List.dropWhile_append_of_pos hall]
  cases more with
  | nil => simp
  | cons c more => simp [hstop c rfl]

end Text

namespace Pattern

variable {text more : List Char}

/-! ## Numerals -/

theorem splitSign_of_ne {c : Char} (hplus : c ≠ '+') (hminus : c ≠ '-') (rest : List Char) :
    splitSign (c :: rest) = ([], c :: rest) := by
  rw [splitSign]
  · exact fun _ heq => hplus (List.cons.inj heq).1
  · exact fun _ heq => hminus (List.cons.inj heq).1

/-- Digits are no sign. -/
theorem splitSign_of_isSign {sign digits : List Char} (hsign : IsSign sign)
    (hdigits : IsDigits digits) (more : List Char) :
    splitSign (sign ++ (digits ++ more)) = (sign, digits ++ more) := by
  obtain rfl | rfl | rfl := hsign
  · obtain ⟨c, others, rfl⟩ := List.exists_cons_of_ne_nil hdigits.ne_nil
    have hc := hdigits.all c List.mem_cons_self
    rw [List.nil_append, List.cons_append, splitSign_of_ne]
    · rintro rfl
      cases hc
    · rintro rfl
      cases hc
  · rfl
  · rfl

/-! ## Quoted text -/

/-- A character to which the two rules for backslashes do not apply is none. -/
theorem ne_of_unprotected {c : Char} {tail : List Char} (hnil : c = '\\' → tail = [] → False)
    (hcons : ∀ c' tail', c = '\\' → tail = c' :: tail' → False) : c ≠ '\\' := by
  intro hc
  cases tail with
  | nil => exact hnil hc rfl
  | cons c' tail' => exact hcons c' tail' hc rfl

theorem splitQuoted_of_ne {quote c : Char} (h : c ≠ '\\') (rest : List Char) :
    splitQuoted quote (c :: rest) =
      if c = quote then some ([c], rest)
      else if c = '\n' then none
      else (splitQuoted quote rest).map fun (body, rest) => (c :: body, rest) := by
  rw [splitQuoted]
  · exact fun hc => absurd hc h
  · exact fun _ _ hc => absurd hc h

/-- A piece of what stands between two marks: a backslash and the character that it protects, or a
character that stands for itself. -/
inductive Piece (quote : Char) : List Char → Prop
  | escape {c : Char} (hnewline : c ≠ '\n') : Piece quote ['\\', c]
  | plain {c : Char} (hquote : c ≠ quote) (hescape : c ≠ '\\') (hnewline : c ≠ '\n') :
    Piece quote [c]

/-- A text of pieces. -/
def Quotable (quote : Char) (text : List Char) : Prop :=
  ∃ pieces : List (List Char), (∀ piece ∈ pieces, Piece quote piece) ∧ pieces.flatten = text

theorem Quotable.cons {quote : Char} {piece : List Char} (hpiece : Piece quote piece)
    (h : Quotable quote text) : Quotable quote (piece ++ text) := by
  obtain ⟨pieces, hpieces, rfl⟩ := h
  exact ⟨piece :: pieces, List.forall_mem_cons.2 ⟨hpiece, hpieces⟩, rfl⟩

/-- A piece does not close the text that it stands in. -/
theorem splitQuoted_piece {quote : Char} {piece : List Char} (h : Piece quote piece)
    (text : List Char) :
    splitQuoted quote (piece ++ text) =
      (splitQuoted quote text).map fun (body, rest) => (piece ++ body, rest) := by
  cases h with
  | escape hnewline =>
    rw [List.cons_append, List.singleton_append, splitQuoted, if_neg hnewline]
    rfl
  | plain hquote hescape hnewline =>
    rw [List.singleton_append, splitQuoted_of_ne hescape, if_neg hquote, if_neg hnewline]
    rfl

theorem splitQuoted_of_quotable {quote : Char} (hquote : quote ≠ '\\') (h : Quotable quote text)
    (more : List Char) :
    splitQuoted quote (text ++ quote :: more) = some (text ++ [quote], more) := by
  obtain ⟨pieces, hpieces, rfl⟩ := h
  induction pieces with
  | nil =>
    rw [List.flatten_nil, List.nil_append, splitQuoted_of_ne hquote, if_pos rfl]
    rfl
  | cons piece pieces ih =>
    obtain ⟨hpiece, hpieces⟩ := List.forall_mem_cons.1 hpieces
    rw [List.flatten_cons, List.append_assoc, splitQuoted_piece hpiece, ih hpieces,
      List.append_assoc]
    rfl

/-- What is cut off are pieces and the mark after them. -/
theorem exists_quotable_of_splitQuoted {quote : Char} {body rest : List Char}
    (h : splitQuoted quote text = some (body, rest)) :
    quote ≠ '\\' ∧ ∃ inner, Quotable quote inner ∧ body = inner ++ [quote] := by
  fun_induction splitQuoted quote text generalizing body rest with
  | case1 => cases h
  | case2 => cases h
  | case3 => cases h
  | case4 c tail hnewline ih =>
    obtain ⟨⟨body', rest'⟩, htail, heq⟩ := Option.map_eq_some_iff.1 h
    cases heq
    obtain ⟨hquote, inner, hinner, rfl⟩ := ih htail
    exact ⟨hquote, _, hinner.cons (.escape hnewline), rfl⟩
  | case5 tail hnil hcons =>
    cases h
    exact ⟨ne_of_unprotected hnil hcons, [], ⟨[], by simp, rfl⟩, rfl⟩
  | case6 => cases h
  | case7 c tail hnil hcons hquote hnewline ih =>
    obtain ⟨⟨body', rest'⟩, htail, heq⟩ := Option.map_eq_some_iff.1 h
    cases heq
    have hescape := ne_of_unprotected hnil hcons
    obtain ⟨hmark, inner, hinner, rfl⟩ := ih htail
    exact ⟨hmark, _, hinner.cons (.plain hquote hescape hnewline), rfl⟩

/-- What is cut off does not depend on the text after it. -/
theorem splitQuoted_body {quote : Char} {body rest : List Char}
    (h : splitQuoted quote text = some (body, rest)) (more : List Char) :
    splitQuoted quote (body ++ more) = some (body, more) := by
  obtain ⟨hquote, inner, hinner, rfl⟩ := exists_quotable_of_splitQuoted h
  rw [List.append_assoc]
  exact splitQuoted_of_quotable hquote hinner more

theorem splitQuoted_append {quote : Char} {body rest : List Char} (more : List Char)
    (h : splitQuoted quote text = some (body, rest)) :
    splitQuoted quote (text ++ more) = some (body, rest ++ more) := by
  rw [eq_append_of_splitQuoted h, List.append_assoc]
  exact splitQuoted_body h (rest ++ more)

/-! ## Lexemes stay on their line -/

theorem IsSign.newline_not_mem {sign : List Char} (h : IsSign sign) : '\n' ∉ sign := by
  obtain rfl | rfl | rfl := h <;> simp

theorem IsDigits.newline_not_mem {digits : List Char} (h : IsDigits digits) : '\n' ∉ digits := by
  intro hmem
  have hdigit := h.all _ hmem
  cases hdigit

theorem Quotable.newline_not_mem {quote : Char} (h : Quotable quote text) : '\n' ∉ text := by
  obtain ⟨pieces, hpieces, rfl⟩ := h
  intro hmem
  obtain ⟨piece, hpiece, hmem⟩ := List.mem_flatten.1 hmem
  cases hpieces piece hpiece with
  | escape hnewline => simp [Ne.symm hnewline] at hmem
  | plain _ _ hnewline => simp [Ne.symm hnewline] at hmem

theorem newline_not_mem_takeWhile {test : Char → Bool} (text : List Char) (h : test '\n' = false) :
    '\n' ∉ text.takeWhile test := by
  intro hmem
  have := List.all_eq_true.1 (List.all_takeWhile ..) _ hmem
  rw [h] at this
  cases this

/-- Whether the pattern rules out a line feed by itself. -/
def oneLine : Pattern → Bool
  | decimal | integer => true
  | quoted quote => quote != '\n'
  | word first => !first '\n'
  | literal text => !text.toList.contains '\n'

theorem newline_not_mem_of_split? {pattern : Pattern} {text lexeme rest : List Char}
    (hline : pattern.oneLine = true) (h : pattern.split? text = some (lexeme, rest)) :
    '\n' ∉ lexeme := by
  cases splits_of_split? h with
  | decimal hsign hwhole hfraction =>
    simp [hsign.newline_not_mem, hwhole.newline_not_mem, hfraction.newline_not_mem]
  | integer hsign hdigits hsuffix =>
    obtain rfl | rfl := hsuffix <;> simp [hsign.newline_not_mem, hdigits.newline_not_mem]
  | @quoted quote _ _ _ hbody =>
    have hquote : quote ≠ '\n' := by simpa [oneLine] using hline
    obtain ⟨-, inner, hinner, rfl⟩ := exists_quotable_of_splitQuoted hbody
    simp [hinner.newline_not_mem, Ne.symm hquote]
  | @word first c others hfirst =>
    have hothers : '\n' ∉ others.takeWhile isWordChar :=
      newline_not_mem_takeWhile others (by decide)
    have hne : '\n' ≠ c := by
      intro heq
      rw [← heq] at hfirst
      simp [oneLine, hfirst] at hline
    simp [hothers, hne]
  | literal => simpa [oneLine] using hline

theorem oneLine_of_mem_table : ∀ row ∈ table, row.1.oneLine = true := by
  decide +kernel

end Pattern

theorem Token.newline_not_mem_of_cut? {text rest : List Char} {kind : Kind} {value : String}
    (h : cut? text = some (kind, value, rest)) : '\n' ∉ value.toList := by
  obtain ⟨row, hrow, hsplit, -⟩ := exists_row_of_cut? h
  exact Pattern.newline_not_mem_of_split? (Pattern.oneLine_of_mem_table row hrow) hsplit

/-- A token that is cut off is a beginning of the text. -/
theorem Token.eq_append_of_cut? {text rest : List Char} {kind : Kind} {value : String}
    (h : cut? text = some (kind, value, rest)) : text = value.toList ++ rest := by
  obtain ⟨row, -, hsplit, -⟩ := exists_row_of_cut? h
  exact Pattern.eq_append_of_split? hsplit

open Text (Separated)

namespace Pattern

variable {text more : List Char}

/-! ## Patterns before white space -/

/-- Whether the pattern accepts no space that is not between quotes. -/
def plain : Pattern → Bool
  | decimal | integer => true
  | quoted quote => quote == '"' || quote == '\''
  | word first => !first ' '
  | literal text => !text.toList.contains ' '

theorem splitSign_append_separated (hmore : Separated more) :
    splitSign (text ++ more) = ((splitSign text).1, (splitSign text).2 ++ more) := by
  cases text with
  | nil =>
    cases more with
    | nil => rfl
    | cons c more =>
      rcases hmore c rfl with rfl | rfl <;> rfl
  | cons c text =>
    rw [List.cons_append]
    unfold splitSign
    split <;> simp_all

theorem isPrefix_append_iff {lexeme : List Char} (hmore : Separated more) (hspace : ' ' ∉ lexeme)
    (hnewline : '\n' ∉ lexeme) : lexeme <+: text ++ more ↔ lexeme <+: text := by
  constructor
  · intro h
    rcases List.prefix_or_prefix_of_prefix h (List.prefix_append text more) with hprefix | hprefix
    · exact hprefix
    · obtain ⟨tail, rfl⟩ := hprefix
      rw [List.prefix_append_right_inj] at h
      cases tail with
      | nil => simp
      | cons c tail =>
        obtain ⟨others, rfl⟩ := h
        rcases hmore c rfl with rfl | rfl
        · simp at hspace
        · simp at hnewline
  · intro h
    exact h.trans (List.prefix_append text more)

/-- Outside quotes a pattern stops where white space follows. -/
theorem split?_append {pattern : Pattern} {c : Char} (hplain : pattern.plain = true)
    (hline : pattern.oneLine = true) (hquote : ¬ (c = '"' ∨ c = '\'')) (hmore : Separated more) :
    pattern.split? (c :: text ++ more) =
      (pattern.split? (c :: text)).map fun (lexeme, rest) => (lexeme, rest ++ more) := by
  have hdigit : ∀ c ∈ more.head?, c.isDigit = false := by
    intro c hc
    rcases hmore c hc with rfl | rfl <;> rfl
  cases pattern with
  | decimal =>
    simp only [split?, splitSign_append_separated hmore, Text.takeWhile_append _ hdigit,
      Text.dropWhile_append _ hdigit]
    generalize (splitSign (c :: text)).2.dropWhile Char.isDigit = others
    -- Where the text ends behind the whole part there is no point in either text.
    cases others with
    | nil =>
      cases more with
      | nil => rfl
      | cons c more =>
        rcases hmore c rfl with rfl | rfl <;> rfl
    | cons c others =>
      by_cases hpoint : c = '.'
      · rw [hpoint, List.cons_append]
        simp only [Text.takeWhile_append _ hdigit, Text.dropWhile_append _ hdigit]
        split <;> rfl
      · simp [hpoint]
  | integer =>
    simp only [split?, splitSign_append_separated hmore, Text.takeWhile_append _ hdigit,
      Text.dropWhile_append _ hdigit]
    generalize (splitSign (c :: text)).2.dropWhile Char.isDigit = others
    split
    · rfl
    · cases others with
      | nil =>
        cases more with
        | nil => rfl
        | cons c more =>
          rcases hmore c rfl with rfl | rfl <;> rfl
      | cons c others =>
        by_cases hlong : c = 'L'
        · rw [hlong]
          rfl
        · simp [hlong]
  | quoted quote =>
    have hne : c ≠ quote := by
      intro heq
      rw [heq] at hquote
      exact hquote (by simpa [plain] using hplain)
    simp [split?, hne]
  | word first =>
    have hword : ∀ c ∈ more.head?, isWordChar c = false := by
      intro c hc
      rcases hmore c hc with rfl | rfl <;> rfl
    simp only [split?, List.cons_append, Text.takeWhile_append _ hword,
      Text.dropWhile_append _ hword]
    split <;> rfl
  | literal expected =>
    have hspace : ' ' ∉ expected.toList := by simpa [plain] using hplain
    have hnewline : '\n' ∉ expected.toList := by simpa [oneLine] using hline
    simp only [split?, isPrefix_append_iff hmore hspace hnewline]
    split
    · rename_i hprefix
      rw [List.drop_append_of_le_length hprefix.length_le]
      rfl
    · rfl

theorem plain_of_mem_table : ∀ row ∈ table, row.1.plain = true := by
  decide +kernel

end Pattern

namespace Token

variable {text more rest : List Char} {kind : Kind} {value : String}

/-- Only the patterns of quoted text accept a quote. -/
theorem cut?_quote {quote : Char} (hquote : quote = '"' ∨ quote = '\'') (text : List Char) :
    cut? (quote :: text) = (Pattern.splitQuoted quote text).map fun (body, rest) =>
      (.string, String.ofList (quote :: body), rest) := by
  rcases hquote with rfl | rfl <;> cases hbody : Pattern.splitQuoted _ text <;>
    simp [cut?, Pattern.table, Pattern.split?, Pattern.splitSign, hbody, Kind.ofText]

/-- What a row of the table cuts off. -/
def cutBy? (row : Pattern × Kind) (text : List Char) : Option (Kind × String × List Char) :=
  (row.1.split? text).map fun (lexeme, rest) =>
    (row.2.ofText (String.ofList lexeme), String.ofList lexeme, rest)

theorem cut?_eq (text : List Char) : cut? text = Pattern.table.findSome? (cutBy? · text) :=
  rfl

/-- What is cut off outside quotes does not depend on the white space after the text. -/
theorem cut?_append_eq {c : Char} (hquote : ¬ (c = '"' ∨ c = '\'')) (hmore : Separated more) :
    cut? (c :: text ++ more) =
      (cut? (c :: text)).map fun (kind, value, rest) => (kind, value, rest ++ more) := by
  have hrows (rows : List (Pattern × Kind))
      (hplain : ∀ row ∈ rows, row.1.plain = true ∧ row.1.oneLine = true) :
      rows.findSome? (cutBy? · (c :: text ++ more)) =
        (rows.findSome? (cutBy? · (c :: text))).map fun (kind, value, rest) =>
          (kind, value, rest ++ more) := by
    induction rows with
    | nil => rfl
    | cons row rows ih =>
      obtain ⟨⟨hrow, hline⟩, hrows⟩ := List.forall_mem_cons.1 hplain
      rw [List.findSome?_cons, List.findSome?_cons, ih hrows, cutBy?, cutBy?,
        Pattern.split?_append hrow hline hquote hmore]
      cases row.1.split? (c :: text) <;> rfl
  rw [cut?_eq, hrows Pattern.table fun row hrow =>
    ⟨Pattern.plain_of_mem_table row hrow, Pattern.oneLine_of_mem_table row hrow⟩, ← cut?_eq]

/-- A token of a text is one too where white space follows the text. -/
theorem cut?_append (hmore : Separated more) (h : cut? text = some (kind, value, rest)) :
    cut? (text ++ more) = some (kind, value, rest ++ more) := by
  cases text with
  | nil => cases h
  | cons c text =>
    by_cases hquote : c = '"' ∨ c = '\''
    · rw [cut?_quote hquote] at h
      obtain ⟨⟨body, rest'⟩, hbody, heq⟩ := Option.map_eq_some_iff.1 h
      cases heq
      rw [List.cons_append, cut?_quote hquote, Pattern.splitQuoted_append more hbody]
      rfl
    · rw [cut?_append_eq hquote hmore, h]
      rfl

/-- White space behind a text can be exchanged, with all that follows. -/
theorem cut?_exchange {c : Char} {more' : List Char} (hmore : Separated more)
    (hmore' : Separated more') (h : cut? (c :: text ++ more) = some (kind, value, rest ++ more)) :
    cut? (c :: text ++ more') = some (kind, value, rest ++ more') := by
  by_cases hquote : c = '"' ∨ c = '\''
  · rw [List.cons_append, cut?_quote hquote] at h ⊢
    obtain ⟨⟨body, rest'⟩, hbody, heq⟩ := Option.map_eq_some_iff.1 h
    cases heq
    have htext := Pattern.eq_append_of_splitQuoted hbody
    rw [← List.append_assoc] at htext
    rw [List.append_cancel_right htext, List.append_assoc, Pattern.splitQuoted_body hbody]
    rfl
  · rw [cut?_append_eq hquote hmore] at h
    obtain ⟨⟨_, _, rest'⟩, hcut, heq⟩ := Option.map_eq_some_iff.1 h
    simp only [Prod.mk.injEq] at heq
    obtain ⟨rfl, rfl, hrest⟩ := heq
    rw [cut?_append_eq hquote hmore', hcut, ← List.append_cancel_right hrest]
    rfl

end Token

end Offside
