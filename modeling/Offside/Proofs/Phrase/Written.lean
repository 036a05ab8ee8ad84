import Offside.Proofs.Token.Lines
import Offside.Proofs.Scanner.Passes
import Offside.Proofs.TypeExpr.Reading

/-!
# Tokens as they are written

What a grammar may take from the scanner: the class of a token settles its spelling, and behind the
token that opens a block there is text, so that a block is never empty (`Phrase.Written`). The tokens
of a text are written in that way (`written_of_tokenize`).
-/

namespace Offside

namespace Phrase

/-- Tokens that are spelled as their classes say, with a token of text behind each that opens a
block. -/
structure Written (tokens : List Token) : Prop where
  worded : Worded tokens
  oneLine : ∀ token ∈ tokens, token.kind = .string → '\n' ∉ token.value.toList
  opens : ∀ token rest, token :: rest <:+ tokens → token.kind = .indent →
    Starts (·.kind.isSynthetic = false) rest

variable {token : Token} {tokens rest : List Token}

theorem Written.mono (h : Written tokens) (hsuffix : rest <:+ tokens) : Written rest :=
  ⟨h.worded.mono hsuffix, fun token hmem => h.oneLine token (hsuffix.subset hmem),
    fun token others hothers => h.opens token others (hothers.trans hsuffix)⟩

theorem written_nil : Written [] :=
  ⟨by simp [Worded], by simp, by simp⟩

theorem Written.cons (hworded : token.Worded)
    (hline : token.kind = .string → '\n' ∉ token.value.toList)
    (hopens : token.kind = .indent → Starts (·.kind.isSynthetic = false) tokens)
    (h : Written tokens) : Written (token :: tokens) := by
  refine ⟨List.forall_mem_cons.2 ⟨hworded, h.worded⟩, List.forall_mem_cons.2 ⟨hline, h.oneLine⟩,
    fun first rest hsuffix hkind => ?_⟩
  rcases List.suffix_cons_iff.1 hsuffix with heq | hsuffix
  · cases heq
    exact hopens hkind
  · exact h.opens first rest hsuffix hkind

/-- Newline tokens and the tokens that open and close blocks spell nothing. -/
theorem Written.cons_synthetic (hkind : token.kind.isSynthetic = true)
    (hopens : token.kind = .indent → Starts (·.kind.isSynthetic = false) tokens)
    (h : Written tokens) : Written (token :: tokens) := by
  refine .cons (Token.worded_of_isSynthetic hkind) (fun hstring => ?_) hopens h
  rw [hstring] at hkind
  cases hkind

end Phrase

open Phrase

namespace Scanner

variable {scanner after : Scanner} {tokens : List Token}

theorem written_outdents (scanner : Scanner) (count : Nat) (h : Written tokens) :
    Written ((List.replicate count Token.Kind.outdent).map (scanner.mark · "") ++ tokens) := by
  induction count with
  | zero => exact h
  | succ count ih =>
    rw [List.replicate_succ, List.map_cons, List.cons_append]
    exact .cons_synthetic rfl (fun hkind => absurd hkind (by simp [mark])) ih

/-- A block opens on a line with text, and closes on any. -/
theorem Passes.written (h : Passes scanner tokens after) (hend : after.skipSpaces.rest = [])
    (hbottom : 0 ∈ scanner.layout.widths) (hdescends : scanner.layout.Descends) :
    Written tokens := by
  induction h with
  | refl => exact written_nil
  | cut hcut _ ih =>
    have hplain := Token.Kind.isSynthetic_of_cut? hcut
    refine .cons (Token.worded_of_cut? hcut) (fun _ => Token.newline_not_mem_of_cut? hcut)
      (fun hkind => ?_) (ih hend hbottom hdescends)
    cases (show _ = Token.Kind.indent from hkind)
    cases hplain
  | @lineBreak scanner after rest kinds tokens hrest hkinds hpasses ih =>
    have htokens := ih hend (Layout.bottom_enter hbottom) (Layout.descends_enter hdescends _)
    refine .cons_synthetic rfl (fun hkind => absurd hkind (by simp [mark])) ?_
    rcases hpasses.afterBreak hend with ⟨hnone, rfl⟩ | ⟨token, later, rfl, hplain⟩
    · obtain ⟨rfl, -⟩ := breaks?_of_rest_nil hkinds hnone hbottom hdescends
      exact written_outdents _ _ htokens
    · cases Layout.breaks_of_breaks? hkinds hbottom with
      | stay => exact htokens
      | deeper => exact .cons_synthetic rfl (fun _ => starts_cons.2 hplain) htokens
      | back count => exact written_outdents _ _ htokens

end Scanner

/-- The tokens of a text before the end token are written as their classes say. -/
theorem written_of_tokenize {source : String} {file : Option String} {tokens : List Token}
    {last : Token} (h : (tokenize source file).result = .ok (tokens ++ [last])) :
    Written tokens := by
  obtain ⟨found, after, hpasses, hend, heq⟩ := Scanner.exists_passes_of_tokenize h
  obtain ⟨rfl, -⟩ := List.append_inj' heq rfl
  exact hpasses.written hend (List.mem_singleton.2 rfl) (List.pairwise_singleton _ _)

end Offside
