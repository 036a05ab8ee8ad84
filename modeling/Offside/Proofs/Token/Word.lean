import Offside.Proofs.Scanner.Steps
import Offside.Proofs.Token.Spelling

/-!
# The texts of names

The class of a constant or of an identifier settles how the token is spelled (`Token.Worded`). It
holds of what is cut off a text (`Token.worded_of_cut?`), and so of every token that a scanner
delivers (`Token.Stream.worded_ofText`).
-/

namespace Offside

/-- A token that is spelled like a name if its class is one of names. -/
structure Token.Worded (token : Token) : Prop where
  constant : token.kind = .constant → Text.isConstant token.value = true
  identifier : token.kind = .identifier → Text.isIdentifier token.value = true

/-- Tokens for white space and for the end of the text are no names. -/
theorem Token.worded_of_isSynthetic {token : Token} (h : token.kind.isSynthetic = true) :
    token.Worded := by
  constructor <;> intro hkind <;> rw [hkind] at h <;> cases h

namespace Pattern

/-- The patterns of names accept words. -/
theorem exists_word_of_mem_table : ∀ row ∈ table, row.2 = .constant ∨ row.2 = .identifier →
    ∃ first, row.1 = .word first ∧ ∀ c, first c = true → isWordStart c = true := by
  have hupper (c : Char) (h : c.isUpper = true) : isWordStart c = true :=
    isWordStart_iff.2 (.inl h)
  simpa [table, isWordStart] using hupper

end Pattern

namespace Token

variable {text rest : List Char} {kind : Kind} {value : String}

theorem Kind.ofText_eq_constant_iff {text : String} :
    kind.ofText text = .constant ↔ kind = .constant := by
  unfold ofText
  split
  · rename_i h
    simp [h.1]
  · rfl

theorem Kind.ofText_eq_identifier_iff {text : String} :
    kind.ofText text = .identifier ↔ kind = .identifier ∧ text ∉ reserved := by
  unfold ofText
  split
  · rename_i h
    simp [h.2]
  · rename_i h
    exact ⟨fun hkind => ⟨hkind, fun hreserved => h ⟨hkind, hreserved⟩⟩, fun h => h.1⟩

/-- A name begins with a letter or an underscore. -/
theorem exists_wordStart_of_cut? (h : cut? text = some (kind, value, rest))
    (hkind : kind = .constant ∨ kind = .identifier) :
    ∃ c others, text = c :: others ∧ Pattern.isWordStart c = true := by
  obtain ⟨row, hrow, hsplit, rfl⟩ := exists_row_of_cut? h
  have hclass : row.2 = .constant ∨ row.2 = .identifier :=
    hkind.imp Kind.ofText_eq_constant_iff.1 fun h => (Kind.ofText_eq_identifier_iff.1 h).1
  obtain ⟨first, hfirst, hstart⟩ := Pattern.exists_word_of_mem_table row hrow hclass
  rw [hfirst] at hsplit
  generalize value.toList = lexeme at hsplit
  cases Pattern.splits_of_split? hsplit with
  | word hc => exact ⟨_, _, rfl, hstart _ hc⟩

theorem worded_of_cut? {line column : Nat} (h : cut? text = some (kind, value, rest)) :
    Worded { kind, value, line, column } := by
  have hword (hkind : kind = .constant ∨ kind = .identifier) : ∃ c others,
      Pattern.isWordStart c = true ∧ value.toList = c :: others ∧
        others.all Pattern.isWordChar = true ∧
        kind = (if c.isUpper = true then Kind.constant else .identifier).ofText value := by
    obtain ⟨c, others, rfl, hstart⟩ := exists_wordStart_of_cut? h hkind
    rw [cut?_word hstart] at h
    cases h
    exact ⟨c, others.takeWhile Pattern.isWordChar, hstart, by simp, List.all_takeWhile .., rfl⟩
  constructor
  · intro hkind
    obtain ⟨c, others, hstart, hvalue, hothers, hclass⟩ := hword (.inl hkind)
    rw [show kind = _ from hkind, eq_comm, Kind.ofText_eq_constant_iff] at hclass
    by_cases hupper : c.isUpper = true
    · simp [Text.isConstant, Text.isWord, hvalue, hupper, hothers]
    · rw [if_neg hupper] at hclass
      cases hclass
  · intro hkind
    obtain ⟨c, others, hstart, hvalue, hothers, hclass⟩ := hword (.inr hkind)
    rw [show kind = _ from hkind, eq_comm, Kind.ofText_eq_identifier_iff] at hclass
    have hlower : c.isLower = true ∨ c = '_' := by
      rcases Pattern.isWordStart_iff.1 hstart with hupper | hlower
      · rw [if_pos hupper] at hclass
        cases hclass.1
      · exact hlower
    simp [Text.isIdentifier, Text.isLowerWord, Text.isWord, hvalue, hlower, hothers, hclass.2]

end Token

/-- A delivery whose token, if it is one, is spelled like a name if its class is one of names. -/
def Delivery.Worded (delivery : Delivery) : Prop :=
  ∀ token, delivery.result = .ok token → token.Worded

theorem Scanner.worded_next {scanner : Scanner} (h : scanner.PendingBreaks) :
    scanner.next.1.Worded := by
  intro token hresult
  have hstep := step_next hresult
  generalize scanner.next.2 = after at hstep
  cases hstep with
  | release hpending =>
    exact Token.worded_of_isSynthetic (h token (by simp [hpending])).isSynthetic
  | stop => exact Token.worded_of_isSynthetic rfl
  | lineBreak => exact Token.worded_of_isSynthetic rfl
  | cut _ hcut => exact Token.worded_of_cut? hcut

/-- The names in a text are spelled like names. -/
theorem Token.Stream.worded_ofText (source : String) (file : Option String) :
    ∀ delivery ∈ (ofText source file).ahead ++ [(ofText source file).last], delivery.Worded := by
  have h := Scanner.forall_mem_stream
    (fun _ hbreaks => ⟨Scanner.worded_next hbreaks, (Scanner.regular_next hbreaks).2⟩)
    (Scanner.ofText source file) (Scanner.pendingBreaks_ofText source file)
  rw [List.forall_mem_append, List.forall_mem_singleton]
  exact h

end Offside
