import Offside.Proofs.Phrase.Shifted

/-!
# Phrases elsewhere in a text

The places of tokens are no part of what they spell, and neither are the tokens after a phrase, as
long as there was one after it already. So a phrase can be moved to other tokens (`Token.Moved`):
there it spells the same type, or an expression with the same bare form.
-/

namespace Offside

open Token (Moved Lasts Shift shifted_anywhere_iff)

theorem Expr.Alike.bare_eq {place place' : Origin → Origin} {expr expr' : Expr}
    (h : Alike place place' expr expr') (origin origin' : Origin)
    (hplace : place origin = place' origin') : expr'.bare = expr.bare := by
  have hsame := bare_congr (h origin origin' hplace)
  rw [bare_stamp, bare_stamp] at hsame
  exact hsame.symm

namespace Phrase

variable {more tokens rest tokens' : List Token} {file file' : String}

theorem silent_elsewhere {place place' : Origin → Origin} (hmore : more = []) :
    Silent (.elsewhere file file' place place' more) :=
  fun _ _ hends => hmore ▸ hends

/-- Where nothing follows, nothing goes on. -/
theorem closes_elsewhere {place place' : Origin → Origin} (hmore : more = []) :
    Closes (.elsewhere file file' place place' more) := by
  have hnil {blocks : Unit} {tokens : List Token}
      (h : (Shift.elsewhere file file' place place' more).ends blocks tokens) : tokens = [] :=
    silent_elsewhere hmore _ _ h
  constructor <;> intro blocks tokens h <;> rw [hnil h]
  · exact ahead_nil
  · exact hmore.symm
  · exact hmore.symm
  · exact ahead_nil
  · exact hmore.symm

theorem TypeTerm.moved {type : TypeExpr} (h : TypeTerm tokens type rest)
    (hmoved : Moved more tokens tokens') (hlasts : Lasts more rest) :
    ∃ rest', TypeTerm tokens' type rest' ∧ Moved more rest rest' := by
  have hshifted := (shifted_anywhere_iff "" "").2 hmoved
  obtain ⟨rest', h', hrest⟩ := h.shifted hshifted fun hnil => silent_elsewhere (hlasts hnil)
  exact ⟨rest', h', (shifted_anywhere_iff "" "").1 hrest⟩

theorem Expression.moved {floor : Power} {expr : Expr} (h : Expression file floor tokens expr rest)
    (hmoved : Moved more tokens tokens') (hlasts : Lasts more rest) :
    ∃ expr' rest', Expression file' floor tokens' expr' rest' ∧ expr'.bare = expr.bare ∧
      Moved more rest rest' := by
  have hshifted := (shifted_anywhere_iff file file').2 hmoved
  obtain ⟨expr', rest', h', htwin, hrest⟩ :=
    (show Expression (Shift.anywhere file file' more).file floor tokens expr rest from h).shifted
      hshifted fun hnil => closes_elsewhere (hlasts hnil)
  exact ⟨expr', rest', h', (Expr.bare_congr htwin.same).symm,
    (shifted_anywhere_iff file file').1 hrest⟩

/-- Only what ends in a body or in a path goes on if it can. -/
theorem Start.moved {expr : Expr} (h : Start file tokens expr rest)
    (hmoved : Moved more tokens tokens')
    (hlasts : Starts (·.declares = true) tokens → Lasts more rest) :
    ∃ expr' rest', Start file' tokens' expr' rest' ∧ expr'.bare = expr.bare ∧
      Moved more rest rest' := by
  have hshifted := (shifted_anywhere_iff file file').2 hmoved
  obtain ⟨expr', rest', h', halike, hrest⟩ :=
    (show Start (Shift.anywhere file file' more).file tokens expr rest from h).shifted hshifted
      fun hstarts hnil => closes_elsewhere (hlasts hstarts hnil)
  exact ⟨expr', rest', h', halike.bare_eq {} {} rfl,
    (shifted_anywhere_iff file file').1 hrest⟩

end Phrase

end Offside
