import Mathlib.Data.List.Chain
import Offside.Proofs.Scanner.Passes

/-!
# Tokens beside each other

The words of a text come in the order of their places, so that no place is taken twice
(`eq_of_place`). Two words without white space tokens between them stand on one line, and no newline
token follows another token for white space (`neighbours_of_tokenize`).
-/

namespace Offside

namespace Token

/-- The token stands before the other one. -/
def Before (token later : Token) : Prop :=
  token.line < later.line ∨ token.line = later.line ∧ token.column < later.column

/-- What holds of a token and the next one. -/
structure Neighbours (token next : Token) : Prop where
  line : token.kind.isSynthetic = false → next.kind.isSynthetic = false → token.line = next.line
  newline : token.kind.isSynthetic = true → next.kind ≠ .newline

end Token

namespace Scanner

variable {scanner after : Scanner} {tokens : List Token}

theorem line_lt_afterBreak {rest : List Char} (hrest : scanner.skipSpaces.rest = '\n' :: rest) :
    scanner.line < (scanner.afterBreak rest).line := by
  obtain ⟨passed, earlier, -, -, hline, rfl⟩ := exists_passed_afterBreak hrest
  rw [hline, List.count_append, List.count_cons_self]
  omega

/-- A passage moves forward. -/
theorem Passes.places (h : Passes scanner tokens after) : ∀ token ∈ tokens,
    scanner.line < token.line ∨ scanner.line = token.line ∧ scanner.column ≤ token.column := by
  induction h with
  | refl => simp
  | @cut scanner after kind value rest tokens hcut _ ih =>
    have hcolumn : scanner.column ≤ scanner.skipSpaces.column := Nat.le_add_right _ _
    refine List.forall_mem_cons.2 ⟨.inr ⟨rfl, hcolumn⟩, fun token hmem => ?_⟩
    refine (ih token hmem).imp_right fun h => ⟨h.1, ?_⟩
    have hafter : scanner.skipSpaces.column + value.length ≤ token.column := h.2
    omega
  | @lineBreak scanner after rest kinds tokens hrest _ _ ih =>
    have hline := line_lt_afterBreak hrest
    refine List.forall_mem_append.2 ⟨fun token hmem => .inl ?_, fun token hmem => .inl ?_⟩
    · obtain rfl | ⟨kind, -, rfl⟩ : _ ∨ _ := by
        simpa [breakTokens] using hmem
      · exact hline
      · exact hline
    · have := ih token hmem
      omega

/-- The tokens of a line break are white space. -/
theorem isSynthetic_breakTokens {layout : Layout} {level : Nat} {kinds : List Token.Kind}
    (here : Scanner) (hkinds : layout.breaks? level = some kinds) :
    ∀ token ∈ here.breakTokens kinds, token.kind.isSynthetic = true := by
  intro token hmem
  obtain rfl | ⟨kind, hkind, rfl⟩ : _ ∨ _ := by
    simpa [breakTokens] using hmem
  · rfl
  · exact Layout.isSynthetic_of_breaks? hkinds kind hkind

/-- The words of a passage come in the order of their places. -/
theorem Passes.pairwise (h : Passes scanner tokens after) :
    tokens.Pairwise fun token later => token.kind.isSynthetic = false → token.Before later := by
  induction h with
  | refl => exact .nil
  | @cut scanner after kind value rest tokens hcut hpasses ih =>
    refine List.pairwise_cons.2 ⟨fun later hmem _ => ?_, ih⟩
    have hvalue : 0 < value.length := by
      have htext := congrArg List.length (Token.eq_append_of_cut? hcut)
      have := Token.length_lt_of_cut? hcut
      rw [List.length_append, String.length_toList] at htext
      omega
    refine (hpasses.places later hmem).imp_right fun h => ⟨h.1, ?_⟩
    have hafter : scanner.skipSpaces.column + value.length ≤ later.column := h.2
    show scanner.skipSpaces.column < later.column
    omega
  | @lineBreak scanner after rest kinds tokens hrest hkinds _ ih =>
    have hbreak := isSynthetic_breakTokens (scanner.afterBreak rest) hkinds
    refine List.pairwise_append.2 ⟨?_, ih, fun token hmem later _ hplain => ?_⟩
    · refine List.pairwise_of_forall_mem_list fun token hmem later _ hplain => ?_
      rw [hbreak token hmem] at hplain
      cases hplain
    · rw [hbreak token hmem] at hplain
      cases hplain

/-- The first token of a passage, if it is a word, stands on the line of the scanner. -/
theorem Passes.line_head (h : Passes scanner tokens after) :
    ∀ token ∈ tokens.head?, token.kind.isSynthetic = false → token.line = scanner.line := by
  cases h with
  | refl => simp
  | cut => simp
  | @lineBreak rest kinds tokens => simp [breakTokens, mark, Token.Kind.isSynthetic]

theorem Passes.neighbours (h : Passes scanner tokens after) (hend : after.skipSpaces.rest = []) :
    tokens.IsChain Token.Neighbours := by
  induction h with
  | refl => exact .nil
  | @cut scanner after kind value rest tokens hcut hpasses ih =>
    have hkind := Token.Kind.isSynthetic_of_cut? hcut
    refine List.isChain_cons.2 ⟨fun next hnext => ⟨fun _ hplain => ?_, fun h => ?_⟩, ih hend⟩
    · exact (hpasses.line_head next hnext hplain).symm
    · rw [hkind] at h
      cases h
  | @lineBreak scanner after rest kinds tokens hrest hkinds hpasses ih =>
    have hbreak := isSynthetic_breakTokens (scanner.afterBreak rest) hkinds
    -- What is beside a token for white space only must not be a newline token.
    have hneighbours {token next : Token}
        (htoken : token ∈ (scanner.afterBreak rest).breakTokens kinds)
        (hnext : next.kind ≠ .newline) : token.Neighbours next := by
      refine ⟨fun hplain => ?_, fun _ => hnext⟩
      rw [hbreak token htoken] at hplain
      cases hplain
    have hshift : ∀ shift ∈ kinds.map ((scanner.afterBreak rest).mark · ""),
        shift.kind ≠ .newline := by
      intro shift hmem
      obtain ⟨kind, hkind, rfl⟩ := List.mem_map.1 hmem
      obtain rfl | rfl := Layout.isShift_of_breaks? hkinds kind hkind <;> simp [mark]
    refine List.isChain_append.2
      ⟨List.Pairwise.isChain ?_, ih hend, fun token htoken next hnext => ?_⟩
    · refine List.pairwise_cons.2 ⟨fun shift hmem => ?_,
        List.pairwise_of_forall_mem_list fun token htoken shift hmem => ?_⟩
      · exact hneighbours List.mem_cons_self (hshift shift hmem)
      · exact hneighbours (List.mem_cons_of_mem _ htoken) (hshift shift hmem)
    · refine hneighbours (List.mem_of_getLast? htoken) fun hkind => ?_
      obtain ⟨-, rfl⟩ | ⟨first, later, rfl, hplain⟩ := hpasses.afterBreak hend
      · cases hnext
      · cases hnext
        rw [hkind] at hplain
        cases hplain

end Scanner

namespace Token

variable {source : String} {file : Option String} {tokens : List Token} {last : Token}

theorem neighbours_of_tokenize (h : (tokenize source file).result = .ok (tokens ++ [last])) :
    tokens.IsChain Neighbours := by
  obtain ⟨found, after, hpasses, hend, heq⟩ := Scanner.exists_passes_of_tokenize h
  obtain ⟨rfl, -⟩ := List.append_inj' heq rfl
  exact hpasses.neighbours hend

/-- A word is found in one place only. -/
theorem eq_of_place (h : (tokenize source file).result = .ok (tokens ++ [last])) {token : Token}
    {before before' rest rest' : List Token} (hplain : token.kind.isSynthetic = false)
    (hplace : tokens = before ++ token :: rest) (hplace' : tokens = before' ++ token :: rest') :
    before = before' ∧ rest = rest' := by
  obtain ⟨found, after, hpasses, -, heq⟩ := Scanner.exists_passes_of_tokenize h
  obtain ⟨rfl, -⟩ := List.append_inj' heq rfl
  have hpairwise := hpasses.pairwise
  -- In a second place the token would stand before itself.
  have hlater {before rest : List Token} (h : tokens = before ++ token :: rest) : token ∉ rest := by
    intro hmem
    rw [h, List.pairwise_append, List.pairwise_cons] at hpairwise
    have hbefore : token.Before token := hpairwise.2.1.1 token hmem hplain
    unfold Before at hbefore
    omega
  rcases List.append_eq_append_iff.1 (hplace.symm.trans hplace') with
    ⟨between, rfl, heq⟩ | ⟨between, rfl, heq⟩
  · cases between with
    | nil => simpa using heq
    | cons first between =>
      obtain ⟨-, rfl⟩ := List.cons.inj heq
      exact absurd (by simp) (hlater hplace)
  · cases between with
    | nil => simpa [eq_comm] using heq
    | cons first between =>
      obtain ⟨-, rfl⟩ := List.cons.inj heq
      exact absurd (by simp) (hlater hplace')

end Token

end Offside
