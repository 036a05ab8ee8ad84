import Offside.Proofs.Phrase.Expression
import Offside.Proofs.Token.Proper

/-!
# Phrases on one line

Types, paths, scoped references and parameters take no token that ends a line or a block, so their
tokens stand on one line (`Phrase.Skips`).
-/

namespace Offside.Phrase

/-- From one place in the tokens to another without a change of line or of blocks. -/
inductive Skips : List Token → List Token → Prop
  | refl {tokens : List Token} : Skips tokens tokens
  | cons {token : Token} {tokens rest : List Token}
    (hkind : token.kind ∉ [.newline, .indent, .outdent]) (h : Skips tokens rest) :
    Skips (token :: tokens) rest

theorem Skips.trans {tokens middle rest : List Token} (h : Skips tokens middle)
    (h' : Skips middle rest) : Skips tokens rest := by
  induction h with
  | refl => exact h'
  | cons hkind _ ih => exact .cons hkind (ih h')

theorem Skips.mark {token : Token} {tokens rest : List Token} (hproper : token.Proper)
    (mark : String × Token.Kind) (hvalue : token.value = mark.1) (h : Skips tokens rest)
    (hmark : mark ∈ Token.marks := by decide)
    (hkind : mark.2 ∉ [Token.Kind.newline, .indent, .outdent] := by decide) :
    Skips (token :: tokens) rest :=
  .cons (hproper mark hmark hvalue ▸ hkind) h

theorem Skips.keyword {token : Token} {tokens rest : List Token} {text : String}
    (hkeyword : token.isKeyword text = true) (h : Skips tokens rest) :
    Skips (token :: tokens) rest := by
  have hkind : token.kind = .keyword := beq_iff_eq.1 (Bool.and_eq_true_iff.1 hkeyword).1
  exact .cons (by simp [hkind]) h

theorem Path.skips {tokens rest : List Token} {path : List String} (h : Path tokens path rest)
    (hproper : Proper tokens) : Skips tokens rest := by
  induction h with
  | stop h => exact h.2 ▸ .refl
  | more h _ ih =>
    obtain ⟨hcolons, hname⟩ := h
    exact .mark hproper.head ("::", .special) hcolons
      (.cons (by simp [hname]) (ih hproper.tail.tail))

mutual

theorem TypeTerm.skips : ∀ {tokens rest : List Token} {type : TypeExpr},
    TypeTerm tokens type rest → Proper tokens → Skips tokens rest
  | _, _, _, .tuple hopen hentries, hproper =>
    .mark hproper.head ("(", .leftParen) hopen (skips_entries hentries hproper.tail)
  | _, _, _, .array hopen hclose helement, hproper =>
    .mark hproper.head ("[", .special) hopen
      (.mark hproper.tail.head ("]", .special) hclose (helement.skips hproper.tail.tail))
  | _, _, _, .function hfn hparams hresult, hproper =>
    .keyword hfn ((hparams.skips hproper.tail).trans
      (hresult.skips (hproper.tail.mono hparams.suffix)))
  | _, _, _, .named hname hpath, hproper =>
    .cons (by simp [hname]) (Path.skips hpath hproper.tail)

theorem skips_entries : ∀ {tokens rest : List Token} {entries : List (Option String × TypeExpr)},
    Items ")" Entry tokens entries rest → Proper tokens → Skips tokens rest
  | _, _, _, .nil hclose, hproper => .mark hproper.head (")", .rightParen) hclose .refl
  | _, _, _, .last _ hitem hclose, hproper =>
    (hitem.skips hproper).trans
      (.mark (hproper.mono hitem.takes.suffix).head (")", .rightParen) hclose .refl)
  | _, _, _, .more _ hitem hcomma hrest, hproper =>
    have hproper' := hproper.mono hitem.takes.suffix
    (hitem.skips hproper).trans
      (.mark hproper'.head (",", .special) hcomma (skips_entries hrest hproper'.tail))

theorem Entry.skips : ∀ {tokens rest : List Token} {entry : Option String × TypeExpr},
    Entry tokens entry rest → Proper tokens → Skips tokens rest
  | _, _, _, .named hname hcolon htype, hproper =>
    .cons (by simp [hname])
      (.mark hproper.tail.head (":", .special) hcolon (htype.skips hproper.tail.tail))
  | _, _, _, .unnamed _ htype, hproper => htype.skips hproper

theorem skips_types : ∀ {tokens rest : List Token} {types : List TypeExpr},
    Items ")" TypeTerm tokens types rest → Proper tokens → Skips tokens rest
  | _, _, _, .nil hclose, hproper => .mark hproper.head (")", .rightParen) hclose .refl
  | _, _, _, .last _ hitem hclose, hproper =>
    (hitem.skips hproper).trans
      (.mark (hproper.mono hitem.takes.suffix).head (")", .rightParen) hclose .refl)
  | _, _, _, .more _ hitem hcomma hrest, hproper =>
    have hproper' := hproper.mono hitem.takes.suffix
    (hitem.skips hproper).trans
      (.mark hproper'.head (",", .special) hcomma (skips_types hrest hproper'.tail))

theorem Domain.skips : ∀ {tokens rest : List Token} {params : List TypeExpr},
    Domain tokens params rest → Proper tokens → Skips tokens rest
  | _, _, _, .list hopen hparams, hproper =>
    .mark hproper.head ("(", .leftParen) hopen (skips_types hparams hproper.tail)
  | _, _, _, .single _ htype, hproper => htype.skips hproper
  | _, _, _, .none _, _ => .refl

theorem Codomain.skips : ∀ {tokens rest : List Token} {result : Option TypeExpr},
    Codomain tokens result rest → Proper tokens → Skips tokens rest
  | _, _, _, .some harrow htype, hproper =>
    .mark hproper.head ("->", .special) harrow (htype.skips hproper.tail)
  | _, _, _, .none _, _ => .refl

end

theorem Items.skips {α : Type} {closing : String} {item : Phrase α} {tokens rest : List Token}
    {found : List α} (hclosing : closing = ")" ∨ closing = "\x7d")
    (htakes : ∀ tokens a rest, item tokens a rest → Takes tokens rest)
    (hitem : ∀ tokens a rest, item tokens a rest → Proper tokens → Skips tokens rest)
    (h : Items closing item tokens found rest) (hproper : Proper tokens) : Skips tokens rest := by
  have hclose {token : Token} {tokens : List Token} (htoken : token.Proper)
      (hvalue : token.value = closing) : Skips (token :: tokens) tokens := by
    rcases hclosing with rfl | rfl
    · exact .mark htoken (")", .rightParen) hvalue .refl
    · exact .mark htoken ("\x7d", .special) hvalue .refl
  induction h with
  | nil hvalue => exact hclose hproper.head hvalue
  | last _ h hvalue =>
    exact (hitem _ _ _ h hproper).trans (hclose (hproper.mono (htakes _ _ _ h).suffix).head hvalue)
  | more _ h hcomma _ ih =>
    have hproper' := hproper.mono (htakes _ _ _ h).suffix
    exact (hitem _ _ _ h hproper).trans
      (.mark hproper'.head (",", .special) hcomma (ih hproper'.tail))

theorem UsePath.skips {tokens rest : List Token} {path : List UseSegment}
    (h : Many UseStep (Before (·.value ≠ "::")) tokens path rest) (hproper : Proper tokens) :
    Skips tokens rest := by
  induction h with
  | stop h => exact h.2 ▸ .refl
  | more h _ ih =>
    have hrest := ih (hproper.mono h.takes.suffix)
    obtain ⟨hcolons, hsegment⟩ := h
    refine .mark hproper.head ("::", .special) hcolons (Skips.trans ?_ hrest)
    cases hsegment with
    | module hname => exact .cons (by simp [hname]) .refl
    | alternatives hbrace hnames =>
      refine .mark hproper.tail.head ("\x7b", .special) hbrace
        (hnames.skips (.inr rfl) (fun _ _ _ => ModuleName.takes) ?_ hproper.tail.tail)
      intro tokens name rest hname _
      obtain ⟨token, rfl, hkind, -⟩ := hname
      exact .cons (by simp [hkind]) .refl

theorem Scope.skips {tokens rest : List Token} {path : List String × String}
    (h : Scope tokens path rest) (hproper : Proper tokens) : Skips tokens rest := by
  induction h with
  | name hcolons hname =>
    exact .mark hproper.head ("::", .special) hcolons (.cons (by simp [hname]) .refl)
  | module hcolons hmodule _ ih =>
    exact .mark hproper.head ("::", .special) hcolons
      (.cons (by simp [hmodule]) (ih hproper.tail.tail))

theorem Param.skips {tokens rest : List Token} {param : Parameter} (h : Param tokens param rest)
    (hproper : Proper tokens) : Skips tokens rest := by
  obtain ⟨hname, hcolon, htype⟩ := h
  exact .cons (by simp [hname])
    (.mark hproper.tail.head (":", .special) hcolon (htype.skips hproper.tail.tail))

theorem Params.skips {tokens rest : List Token} {params : List Parameter}
    (h : Params tokens params rest) (hproper : Proper tokens) : Skips tokens rest := by
  cases h with
  | single hparam => exact hparam.skips hproper
  | list hopen hparams =>
    exact .cons (by simp [hopen]) (hparams.skips (.inl rfl) (fun _ _ _ h => h.takes)
      (fun _ _ _ h => h.skips) hproper.tail)
  | none => exact .refl

end Offside.Phrase
