import Offside.Proofs.Token.Recut
import Offside.Proofs.Token.Word

/-!
# The longest token

The table of patterns is read from its beginning, and the first row that accepts a text takes all that
any row would take (`Pattern.pairwise_table`). The reason is that no row accepts what a later one cuts
off, but for the two kinds of words: so what it accepts of the text is no beginning of that
(`Pattern.length_lt_of_rejects`). A token is therefore a token of its own text, and the text settles the
class (`Token.maximal_munch`).
-/

namespace Offside

namespace Pattern

variable {earlier later : Pattern} {text lexeme lexeme' rest rest' : List Char}

/-! ## Patterns that stand before others -/

/-- A numeral without a point is none with a point. -/
theorem split?_decimal_of_integer (h : integer.split? text = some (lexeme, rest)) :
    decimal.split? lexeme = none := by
  cases splits_integer h with
  | @integer sign digits suffix _ hsign hdigits hsuffix =>
    have hstop : ∀ c ∈ suffix.head?, c.isDigit = false := by
      obtain rfl | rfl := hsuffix <;> simp
    obtain ⟨-, hdrop⟩ := Text.takeWhile_dropWhile_append hdigits.all hstop
    simp only [split?, splitSign_of_isSign hsign hdigits, hdrop]
    obtain rfl | rfl := hsuffix <;> rfl

/-- Whether the earlier pattern accepts nothing that the later one cuts off. -/
def rejects : Pattern → Pattern → Bool
  | earlier, literal text => (earlier.split? text.toList).isNone
  | earlier, word _ => earlier.noWord
  | decimal, quoted quote | integer, quoted quote => quote == '"' || quote == '\''
  | quoted quote, quoted quote' => quote != quote'
  | decimal, integer => true
  | _, _ => false

theorem split?_of_rejects_quoted {quote : Char} (h : earlier.rejects (quoted quote) = true)
    (body : List Char) : earlier.split? (quote :: body) = none := by
  cases earlier with
  | decimal | integer =>
    have hquote : quote = '"' ∨ quote = '\'' := by simpa [rejects] using h
    rcases hquote with rfl | rfl <;> simp [split?, splitSign]
  | quoted quote' =>
    have hne : quote ≠ quote' := fun heq => by simp [rejects, heq] at h
    simp [split?, hne]
  | word | literal => cases h

theorem split?_of_rejects (h : earlier.rejects later = true)
    (hword : ∀ first, later = word first → ∀ c, first c = true → isWordStart c = true)
    (hlater : later.split? text = some (lexeme, rest)) : earlier.split? lexeme = none := by
  cases splits_of_split? hlater with
  | decimal => cases earlier <;> cases h
  | integer =>
    cases earlier with
    | decimal => exact split?_decimal_of_integer hlater
    | _ => cases h
  | quoted => exact split?_of_rejects_quoted h _
  | word hfirst => exact split?_of_noWord h (hword _ rfl _ hfirst) _
  | literal => simpa [rejects] using h

/-- Where both patterns accept the text, the earlier one takes more of it. -/
theorem length_lt_of_rejects (hearlier : earlier.split? text = some (lexeme, rest))
    (hlater : later.split? text = some (lexeme', rest')) (hnone : earlier.split? lexeme' = none) :
    lexeme'.length < lexeme.length := by
  refine Nat.lt_of_not_le fun hle => ?_
  have hbegins : lexeme <+: text := by
    rw [eq_append_of_split? hearlier]
    exact List.prefix_append ..
  have hbegins' : lexeme' <+: text := by
    rw [eq_append_of_split? hlater]
    exact List.prefix_append ..
  obtain ⟨more, rfl⟩ := List.prefix_of_prefix_length_le hbegins hbegins' hle
  have hsome := isSome_split?_append (split?_lexeme hearlier) more
  rw [hnone] at hsome
  cases hsome

/-- A word ends in the same place whatever it may begin with. -/
theorem eq_of_split?_word {first first' : Char → Bool}
    (h : (word first).split? text = some (lexeme, rest))
    (h' : (word first').split? text = some (lexeme', rest')) : lexeme' = lexeme := by
  cases splits_of_split? h
  cases splits_of_split? h'
  rfl

/-! ## The table -/

/-- Where both rows accept a text, the first takes more of it, or they are those of words and take the
same. -/
def Outranks (row row' : Pattern × Token.Kind) : Prop :=
  ∀ text lexeme rest lexeme' rest', row.1.split? text = some (lexeme, rest) →
    row'.1.split? text = some (lexeme', rest') →
      lexeme'.length < lexeme.length ∨
        lexeme' = lexeme ∧ row.2 = .constant ∧ row'.2 = .identifier

theorem isWordStart_of_mem_table : ∀ row ∈ table, ∀ first, row.1 = word first →
    ∀ c, first c = true → isWordStart c = true := by
  have hupper (c : Char) (h : c.isUpper = true) : isWordStart c = true :=
    isWordStart_iff.2 (.inl h)
  simpa [table, isWordStart] using hupper

theorem rejects_table : table.Pairwise fun row row' =>
    row.1.rejects row'.1 = true ∨ row.2 = .constant ∧ row'.2 = .identifier := by
  decide +kernel

theorem pairwise_table : table.Pairwise Outranks := by
  refine rejects_table.imp_of_mem fun {row row'} hrow hrow' h => ?_
  intro text lexeme rest lexeme' rest' hsplit hsplit'
  obtain hrejects | ⟨hconstant, hidentifier⟩ := h
  · have hnone := split?_of_rejects hrejects (isWordStart_of_mem_table row' hrow') hsplit'
    exact .inl (length_lt_of_rejects hsplit hsplit' hnone)
  · obtain ⟨first, hfirst, -⟩ := exists_word_of_mem_table row hrow (.inl hconstant)
    obtain ⟨first', hfirst', -⟩ := exists_word_of_mem_table row' hrow' (.inr hidentifier)
    rw [hfirst] at hsplit
    rw [hfirst'] at hsplit'
    exact .inr ⟨eq_of_split?_word hsplit hsplit', hconstant, hidentifier⟩

/-- The first row that accepts the text takes as much of it as any row. -/
theorem length_le_of_first {before after : List (Pattern × Token.Kind)} {first row : Pattern × Token.Kind}
    (htable : table = before ++ first :: after) (hnone : ∀ row ∈ before, row.1.split? text = none)
    (hfirst : first.1.split? text = some (lexeme, rest)) (hrow : row ∈ table)
    (hsplit : row.1.split? text = some (lexeme', rest')) : lexeme'.length ≤ lexeme.length := by
  have hranks := pairwise_table
  rw [htable, List.pairwise_append, List.pairwise_cons] at hranks
  obtain ⟨-, ⟨houtranks, -⟩, -⟩ := hranks
  rw [htable, List.mem_append, List.mem_cons] at hrow
  obtain hbefore | rfl | hafter := hrow
  · rw [hnone row hbefore] at hsplit
    cases hsplit
  · rw [hfirst] at hsplit
    cases hsplit
    exact Nat.le_refl _
  · obtain hlt | ⟨rfl, -⟩ := houtranks row hafter text _ _ _ _ hfirst hsplit
    · exact Nat.le_of_lt hlt
    · exact Nat.le_refl _

end Pattern

namespace Token

variable {text : List Char} {row : Pattern × Kind} {token token' : Token}

/-- The first row that accepts the text cuts the value off, and no row takes more of the text. -/
structure Longest (text : List Char) (first : Pattern × Kind) (value : String) (rest : List Char) :
    Prop where
  find : Pattern.table.find? (fun row => (row.1.split? text).isSome) = some first
  split : first.1.split? text = some (value.toList, rest)
  cut : cut? text = some (first.2.ofText value, value, rest)
  nonempty : value ≠ ""
  oneLine : '\n' ∉ value.toList
  longest : ∀ row ∈ Pattern.table, ∀ lexeme more, row.1.split? text = some (lexeme, more) →
    lexeme.length ≤ value.toList.length

theorem exists_longest (hrow : row ∈ Pattern.table) (haccepts : (row.1.split? text).isSome = true) :
    ∃ first value rest, Longest text first value rest := by
  have hcut : (Pattern.table.findSome? (cutBy? · text)).isSome = true := by
    refine List.findSome?_isSome_iff.2 ⟨row, hrow, ?_⟩
    rw [cutBy?, Option.isSome_map, haccepts]
  obtain ⟨⟨kind, value, rest⟩, hcut⟩ := Option.isSome_iff_exists.1 hcut
  obtain ⟨before, first, after, htable, hfirst, hbefore⟩ := List.findSome?_eq_some_iff.1 hcut
  have hnone : ∀ row ∈ before, row.1.split? text = none := fun row hmem =>
    Option.map_eq_none_iff.1 (hbefore row hmem)
  obtain ⟨⟨lexeme, _⟩, hsplit, heq⟩ := Option.map_eq_some_iff.1 hfirst
  cases heq
  refine ⟨first, String.ofList lexeme, rest, {
    find := List.find?_eq_some_iff_append.2 ⟨by simp [hsplit], before, after, htable, ?_⟩
    split := by rw [String.toList_ofList, hsplit]
    cut := hcut
    nonempty := fun hnil => ?_
    oneLine := newline_not_mem_of_cut? hcut
    longest := ?_ }⟩
  · intro row hmem
    simp [hnone row hmem]
  · obtain ⟨c, others, hvalue, -⟩ := exists_head_of_cut? hcut
    rw [hnil] at hvalue
    cases hvalue
  · rw [String.toList_ofList]
    exact fun row hmem found more h => Pattern.length_le_of_first htable hnone hsplit hmem h

/-! ## The class of a text -/

/-- A token is for a shift of the layout or for the end of the text, for a line break, or cut off its
own text. -/
theorem Delivered.cases (h : token.Delivered) :
    token.kind.isSynthetic = true ∧ token.value = "" ∨ token.kind = .newline ∧ token.value = "\n" ∨
      cut? token.value.toList = some (token.kind, token.value, []) := by
  have hnext (scanner : Scanner) (token : Token) (hbreaks : scanner.PendingBreaks)
      (hresult : scanner.next.1.result = .ok token) :
      token.kind.isSynthetic = true ∧ token.value = "" ∨
        token.kind = .newline ∧ token.value = "\n" ∨
          cut? token.value.toList = some (token.kind, token.value, []) := by
    have hstep := Scanner.step_next hresult
    generalize scanner.next.2 = after at hstep
    cases hstep with
    | release hpending =>
      obtain hnewline | ⟨hkind, hvalue⟩ := hbreaks token (by simp [hpending])
      · exact .inr (.inl hnewline)
      · exact .inl ⟨by rcases hkind with hkind | hkind <;> rw [hkind] <;> rfl, hvalue⟩
    | stop => exact .inl ⟨rfl, rfl⟩
    | lineBreak => exact .inr (.inl ⟨rfl, rfl⟩)
    | cut _ hcut => exact .inr (.inr (cut?_value hcut))
  exact h.of_next hnext

/-- A token of text is cut off its own text. -/
theorem Delivered.cut?_of_plain (h : token.Delivered) (hkind : token.kind.isSynthetic = false) :
    cut? token.value.toList = some (token.kind, token.value, []) := by
  obtain ⟨hsynthetic, -⟩ | ⟨hnewline, -⟩ | hcut := h.cases
  · rw [hkind] at hsynthetic
    cases hsynthetic
  · rw [hnewline] at hkind
    cases hkind
  · exact hcut

theorem Delivered.kind_eq (h : token.Delivered) (h' : token'.Delivered)
    (hvalue : token'.value = token.value) (hne : token.value ≠ "") : token'.kind = token.kind := by
  obtain ⟨-, hnil⟩ | ⟨hkind, hbreak⟩ | hcut := h.cases
  · exact absurd hnil hne
  · obtain ⟨-, hnil⟩ | ⟨hkind', -⟩ | hcut' := h'.cases
    · exact absurd (hvalue.symm.trans hnil) hne
    · rw [hkind, hkind']
    · rw [hvalue, hbreak] at hcut'
      cases hcut'
  · obtain ⟨-, hnil⟩ | ⟨-, hbreak⟩ | hcut' := h'.cases
    · exact absurd (hvalue.symm.trans hnil) hne
    · rw [← hvalue, hbreak] at hcut
      cases hcut
    · rw [hvalue, hcut] at hcut'
      exact (Prod.mk.inj (Option.some.inj hcut')).1.symm

/-- The class of a word is settled by its first letter and by whether it is reserved. -/
theorem Delivered.kind_of_word (h : token.Delivered)
    (hword : Text.isWord Pattern.isWordStart token.value = true) :
    token.kind =
      if token.value.toList.head?.any Char.isUpper then .constant
      else if token.value ∈ reserved then .keyword else .identifier := by
  obtain ⟨c, rest, hvalue, hc, -⟩ := Text.exists_cons_of_isWord hword
  obtain ⟨-, hnil⟩ | ⟨-, hbreak⟩ | hcut := h.cases
  · rw [hnil] at hvalue
    cases hvalue
  · rw [hbreak] at hvalue
    cases hvalue
    cases hc
  · have hclass := hcut
    rw [hvalue, cut?_word hc, Option.some_inj, Prod.mk.injEq, Prod.mk.injEq] at hclass
    obtain ⟨hkind, hvalue', -⟩ := hclass
    rw [← hkind, hvalue', hvalue, Kind.ofText]
    by_cases hupper : c.isUpper = true
    · simp [hupper]
    · simp [hupper]

/-- The first pattern that accepts a text takes as much of it as any other, and two patterns take the
same only where they are those of words. So the text of a token settles its class. -/
theorem maximal_munch :
    (∀ text, (∃ row ∈ Pattern.table, (row.1.split? text).isSome = true) →
      ∃ first value rest, Longest text first value rest) ∧
    (Pattern.table.Pairwise fun row row' => ∀ text lexeme rest lexeme' rest',
      row.1.split? text = some (lexeme, rest) → row'.1.split? text = some (lexeme', rest') →
        lexeme'.length = lexeme.length → row.2 = .constant ∧ row'.2 = .identifier) ∧
    (∀ token token' : Token, token.Delivered → token'.Delivered → token'.value = token.value →
      token'.kind = token.kind ∨ token.value = "" ∧ token'.value = "") ∧
    ∀ token : Token, token.Delivered → Text.isWord Pattern.isWordStart token.value = true →
      token.kind =
        if token.value.toList.head?.any Char.isUpper then .constant
        else if token.value ∈ reserved then .keyword else .identifier := by
  refine ⟨?_, Pattern.pairwise_table.imp ?_, ?_, fun token h => h.kind_of_word⟩
  · rintro text ⟨row, hrow, haccepts⟩
    exact exists_longest hrow haccepts
  · intro row row' hranks text lexeme rest lexeme' rest' hsplit hsplit' hlength
    obtain hlt | ⟨-, hwords⟩ := hranks text lexeme rest lexeme' rest' hsplit hsplit'
    · exact absurd hlength (Nat.ne_of_lt hlt)
    · exact hwords
  · intro token token' h h' hvalue
    by_cases hnil : token.value = ""
    · exact .inr ⟨hnil, hvalue.trans hnil⟩
    · exact .inl (h.kind_eq h' hvalue hnil)

end Token

end Offside
