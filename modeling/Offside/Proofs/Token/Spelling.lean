import Offside.Proofs.Token.Cut

/-!
# How tokens are spelled

The texts of names, numbers and strings, and of the marks between them. Each is cut off whole where
the text after it does not go on with the token (`Text.Apart`): `Token.cut?_name`,
`Token.cut?_integer`, `Token.cut?_string` and `Token.cut?_symbol`.
-/

namespace Offside

namespace Text

/-- No token that ends before the text goes on with it. -/
def Apart (text : List Char) : Prop :=
  ∀ c ∈ text.head?, Pattern.isWordChar c = false ∧ c ≠ '.'

theorem apart_cons {c : Char} (text : List Char)
    (h : Pattern.isWordChar c = false ∧ c ≠ '.' := by decide) : Apart (c :: text) := by
  intro first hfirst
  cases hfirst
  exact h

/-- Whether the text is a word whose first letter satisfies `first`. -/
def isWord (first : Char → Bool) (text : String) : Bool :=
  match text.toList with
  | [] => false
  | c :: rest => first c && rest.all Pattern.isWordChar

/-- Whether the text is the name of a module or of a type. -/
def isConstant : String → Bool :=
  isWord Char.isUpper

/-- Whether the text can be a name or a keyword. -/
def isLowerWord : String → Bool :=
  isWord fun c => c.isLower || c == '_'

/-- Whether the text is the name of a function or of a value. -/
def isIdentifier (text : String) : Bool :=
  isLowerWord text && !Token.reserved.contains text

/-- Whether the text can stand between double quotes. -/
def isQuotable : List Char → Bool
  | [] => true
  | '\\' :: [] => false
  | '\\' :: c :: rest => c != '\n' && isQuotable rest
  | c :: rest => c != '"' && c != '\n' && isQuotable rest

theorem exists_cons_of_isWord {first : Char → Bool} {text : String} (h : isWord first text = true) :
    ∃ c rest, text.toList = c :: rest ∧ first c = true ∧ rest.all Pattern.isWordChar = true := by
  unfold isWord at h
  split at h
  · cases h
  · rename_i c rest htext
    rw [Bool.and_eq_true] at h
    exact ⟨c, rest, htext, h⟩

end Text

open Text (Apart)

/-! ## Words -/

namespace Pattern

/-- Whether a word can begin with the character. -/
def isWordStart (c : Char) : Bool :=
  c.isAlpha || c == '_'

theorem toNat_of_isUpper {c : Char} (h : c.isUpper = true) :
    65 ≤ c.val.toNat ∧ c.val.toNat ≤ 90 := by
  obtain ⟨hfirst, hlast⟩ := of_decide_eq_true (p := 'A'.val ≤ c.val ∧ c.val ≤ 'Z'.val) h
  exact ⟨UInt32.le_iff_toNat_le.1 hfirst, UInt32.le_iff_toNat_le.1 hlast⟩

theorem toNat_of_isLower {c : Char} (h : c.isLower = true) :
    97 ≤ c.val.toNat ∧ c.val.toNat ≤ 122 := by
  obtain ⟨hfirst, hlast⟩ := Bool.and_eq_true_iff.1 h
  exact ⟨UInt32.le_iff_toNat_le.1 (of_decide_eq_true hfirst),
    UInt32.le_iff_toNat_le.1 (of_decide_eq_true hlast)⟩

theorem toNat_of_isDigit {c : Char} (h : c.isDigit = true) :
    48 ≤ c.val.toNat ∧ c.val.toNat ≤ 57 := by
  obtain ⟨hfirst, hlast⟩ := Bool.and_eq_true_iff.1 h
  exact ⟨UInt32.le_iff_toNat_le.1 (of_decide_eq_true hfirst),
    UInt32.le_iff_toNat_le.1 (of_decide_eq_true hlast)⟩

theorem isWordStart_iff {c : Char} :
    isWordStart c = true ↔ c.isUpper = true ∨ c.isLower = true ∨ c = '_' := by
  show (c.isUpper || c.isLower || c == '_') = true ↔ _
  rw [Bool.or_eq_true, Bool.or_eq_true, beq_iff_eq, or_assoc]

theorem isDigit_of_isWordStart {c : Char} (h : isWordStart c = true) : c.isDigit = false := by
  rw [← Bool.not_eq_true]
  intro hdigit
  have hdigit := toNat_of_isDigit hdigit
  rcases isWordStart_iff.1 h with hupper | hlower | rfl
  · have := toNat_of_isUpper hupper
    omega
  · have := toNat_of_isLower hlower
    omega
  · exact absurd hdigit (by decide)

/-- Whether the pattern accepts no words. -/
def noWord : Pattern → Bool
  | decimal | integer => true
  | quoted quote => !isWordStart quote
  | word _ => false
  | literal text => text.toList.head?.any fun c => !isWordStart c

theorem split?_of_noWord {pattern : Pattern} {c : Char} (h : pattern.noWord = true)
    (hc : isWordStart c = true) (text : List Char) : pattern.split? (c :: text) = none := by
  have hsign : splitSign (c :: text) = ([], c :: text) := by
    refine splitSign_of_ne ?_ ?_ text
    · rintro rfl
      cases hc
    · rintro rfl
      cases hc
  have hdigit := isDigit_of_isWordStart hc
  cases pattern with
  | decimal =>
    simp only [split?, hsign, List.takeWhile_cons, List.dropWhile_cons, hdigit]
    split <;> simp
  | integer => simp [split?, hsign, hdigit]
  | quoted quote =>
    have hne : c ≠ quote := by
      intro heq
      rw [noWord, ← heq, hc] at h
      cases h
    simp [split?, hne]
  | word first => cases h
  | literal expected =>
    simp only [split?]
    rw [if_neg]
    intro hprefix
    cases hexpected : expected.toList with
    | nil =>
      rw [noWord, hexpected] at h
      cases h
    | cons first others =>
      rw [hexpected, List.cons_prefix_cons] at hprefix
      rw [noWord, hexpected, hprefix.1] at h
      simp [hc] at h

end Pattern

namespace Token

variable {c : Char} {text more : List Char}

/-- A word is cut off whole, and its class is settled by its first letter and by whether it is
reserved. -/
theorem cut?_word (hc : Pattern.isWordStart c = true) (text : List Char) :
    cut? (c :: text) = some
      ((if c.isUpper = true then Kind.constant else Kind.identifier).ofText
          (String.ofList (c :: text.takeWhile Pattern.isWordChar)),
        String.ofList (c :: text.takeWhile Pattern.isWordChar),
        text.dropWhile Pattern.isWordChar) := by
  have hskip : (Pattern.table.take 27).findSome? (cutBy? · (c :: text)) = none := by
    refine List.findSome?_eq_none_iff.2 fun row hrow => ?_
    have hnoWord : ∀ row ∈ Pattern.table.take 27, row.1.noWord = true := by decide +kernel
    rw [cutBy?, Pattern.split?_of_noWord (hnoWord row hrow) hc, Option.map_none]
  rw [cut?_eq, ← List.take_append_drop 27 Pattern.table, List.findSome?_append, hskip,
    Option.none_or]
  show List.findSome? _ ((.word Char.isUpper, .constant) ::
    (.word fun c => c.isAlpha || c == '_', .identifier) :: Pattern.table.drop 29) = _
  rw [List.findSome?_cons, List.findSome?_cons]
  by_cases hupper : c.isUpper = true
  · simp [cutBy?, Pattern.split?, hupper]
  · rw [Pattern.isWordStart] at hc
    simp [cutBy?, Pattern.split?, hupper, hc]

theorem cut?_of_isWord {first : Char → Bool} (kind : Kind) {name : String}
    (h : Text.isWord first name = true) (hmore : Apart more)
    (hfirst : ∀ c, first c = true → Pattern.isWordStart c = true ∧
      (if c.isUpper = true then Kind.constant else Kind.identifier) = kind) :
    cut? (name.toList ++ more) = some (kind.ofText name, name, more) := by
  obtain ⟨c, rest, hname, hc, hrest⟩ := Text.exists_cons_of_isWord h
  obtain ⟨hstart, hkind⟩ := hfirst c hc
  obtain ⟨htake, hdrop⟩ := Text.takeWhile_dropWhile_append (List.all_eq_true.1 hrest)
    fun c hc => (hmore c hc).1
  rw [hname, List.cons_append, cut?_word hstart, htake, hdrop, hkind, ← hname, String.ofList_toList]

theorem cut?_constant {name : String} (h : Text.isConstant name = true) (hmore : Apart more) :
    cut? (name.toList ++ more) = some (.constant, name, more) := by
  refine cut?_of_isWord .constant h hmore fun c hc => ?_
  exact ⟨Pattern.isWordStart_iff.2 (.inl hc), if_pos hc⟩

/-- A word that begins with a small letter is a name, unless it is reserved. -/
theorem cut?_lowerWord {name : String} (h : Text.isLowerWord name = true) (hmore : Apart more) :
    cut? (name.toList ++ more) = some (Kind.identifier.ofText name, name, more) := by
  refine cut?_of_isWord .identifier h hmore fun c hc => ?_
  rw [Bool.or_eq_true, beq_iff_eq] at hc
  refine ⟨Pattern.isWordStart_iff.2 (.inr hc), if_neg fun hupper => ?_⟩
  have hupper := Pattern.toNat_of_isUpper hupper
  rcases hc with hlower | rfl
  · have := Pattern.toNat_of_isLower hlower
    omega
  · exact absurd hupper (by decide)

theorem cut?_identifier {name : String} (h : Text.isIdentifier name = true) (hmore : Apart more) :
    cut? (name.toList ++ more) = some (.identifier, name, more) := by
  simp only [Text.isIdentifier, Bool.and_eq_true, Bool.not_eq_true', List.contains_eq_mem,
    decide_eq_false_iff_not] at h
  have hkind : Kind.identifier.ofText name = .identifier := if_neg fun hreserved => h.2 hreserved.2
  rw [cut?_lowerWord h.1 hmore, hkind]

theorem cut?_keyword {name : String} (hmore : Apart more)
    (h : name ∈ reserved := by decide) : cut? (name.toList ++ more) = some (.keyword, name, more) := by
  have hword : ∀ name ∈ reserved, Text.isLowerWord name = true := by decide +kernel
  have hkind : Kind.identifier.ofText name = .keyword := if_pos ⟨rfl, h⟩
  rw [cut?_lowerWord (hword name h) hmore, hkind]

/-! ## Numbers -/

theorem cut?_integer {sign digits : List Char} (hsign : Pattern.IsSign sign)
    (hdigits : Pattern.IsDigits digits) (hmore : Apart more) :
    cut? (sign ++ digits ++ more) = some (.integer, String.ofList (sign ++ digits), more) := by
  have hsplit := Pattern.splitSign_of_isSign hsign hdigits more
  rw [← List.append_assoc] at hsplit
  have hstop : ∀ c ∈ more.head?, c.isDigit = false ∧ c ≠ 'L' ∧ c ≠ '.' := by
    intro c hc
    obtain ⟨hword, hpoint⟩ := hmore c hc
    simp only [Pattern.isWordChar, Char.isAlphanum, Bool.or_eq_false_iff] at hword
    refine ⟨hword.1.2, fun hlong => ?_, hpoint⟩
    rw [hlong] at hword
    exact absurd hword (by decide)
  obtain ⟨htake, hdrop⟩ := Text.takeWhile_dropWhile_append hdigits.all fun c hc => (hstop c hc).1
  have hdecimal : Pattern.decimal.split? (sign ++ digits ++ more) = none := by
    simp only [Pattern.split?, hsplit, hdrop]
    cases more with
    | nil => rfl
    | cons c more => simp [(hstop c rfl).2.2]
  have hinteger : Pattern.integer.split? (sign ++ digits ++ more) = some (sign ++ digits, more) := by
    simp only [Pattern.split?, hsplit, htake, hdrop, List.isEmpty_iff]
    rw [if_neg hdigits.ne_nil]
    cases more with
    | nil => rfl
    | cons c more => simp [(hstop c rfl).2.1]
  rw [cut?_eq, Pattern.table, List.findSome?_cons, List.findSome?_cons, cutBy?, cutBy?, hdecimal,
    hinteger]
  rfl

/-! ## Strings -/

theorem quotable_of_isQuotable {body : List Char} (h : Text.isQuotable body = true) :
    Pattern.Quotable '"' body := by
  fun_induction Text.isQuotable body with
  | case1 => exact ⟨[], by simp, rfl⟩
  | case2 => cases h
  | case3 c rest ih =>
    rw [Bool.and_eq_true, bne_iff_ne] at h
    exact (ih h.2).cons (.escape h.1)
  | case4 c rest hnil hcons ih =>
    simp only [Bool.and_eq_true, bne_iff_ne] at h
    obtain ⟨⟨hquote, hnewline⟩, hrest⟩ := h
    have hescape := Pattern.ne_of_unprotected hnil hcons
    exact (ih hrest).cons (.plain hquote hescape hnewline)

theorem cut?_string {body : List Char} (h : Text.isQuotable body = true) (more : List Char) :
    cut? ('"' :: (body ++ '"' :: more)) =
      some (.string, String.ofList ('"' :: (body ++ ['"'])), more) := by
  rw [cut?_quote (.inl rfl),
    Pattern.splitQuoted_of_quotable (by decide) (quotable_of_isQuotable h)]
  rfl

/-! ## Marks -/

/-- The marks that are tokens of their own whatever follows them. -/
def symbols : List (String × Kind) :=
  [("(", .leftParen), (")", .rightParen), ("::", .special), ("->", .special), (",", .special),
    ("[", .special), ("]", .special), ("\x7b", .special), ("\x7d", .special)]

theorem cut?_symbol (text : List Char) : ∀ symbol ∈ symbols,
    cut? (symbol.1.toList ++ text) = some (symbol.2, symbol.1, text) := by
  simp only [symbols, List.forall_mem_cons]
  exact ⟨rfl, rfl, rfl, rfl, rfl, rfl, rfl, rfl, rfl, by simp⟩

theorem apart_symbol (text : List Char) : ∀ symbol ∈ symbols, Apart (symbol.1.toList ++ text) := by
  simp only [symbols, List.forall_mem_cons]
  refine ⟨?_, ?_, ?_, ?_, ?_, ?_, ?_, ?_, ?_, by simp⟩ <;> exact Text.apart_cons _

/-- A colon is a token of its own before a space. -/
theorem cut?_colon (text : List Char) :
    cut? (':' :: ' ' :: text) = some (.special, ":", ' ' :: text) :=
  rfl

end Token

end Offside
