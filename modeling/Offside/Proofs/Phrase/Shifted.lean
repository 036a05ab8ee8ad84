import Offside.Proofs.Expr.Alike
import Offside.Proofs.Grammar.Declaration
import Offside.Proofs.Phrase.ShiftedParts

/-!
# Phrases in another text

Tokens that stand in another text, with the open blocks closed behind them, spell the same there
(`Phrase.Program.shifted`): expressions that are alike and the same at other places (`Expr.Twin`).
-/

namespace Offside

namespace Phrase

open Token (Shift Shifted isPlain_of_value isPlain_of_kind isPlain_of_keyword)

/-! ## Expressions -/

theorem isSynthetic_of_start {file : String} {token : Token} {tokens rest : List Token} {expr : Expr}
    (h : Start file (token :: tokens) expr rest) : token.kind.isSynthetic = false :=
  (by decide : ∀ kind ∈ [.keyword, .integer, .float, .string, .identifier, .constant, .leftParen],
    Token.Kind.isSynthetic kind = false) _ (Grammar.kind_of_start h)

theorem isPlain_of_literal {token : Token} {expr : Expr} (h : token.literal? = some expr) :
    token.IsPlain := by
  have hkind := isSynthetic_of_start (.literal h : Start "" [token] expr [])
  refine .inr ⟨fun heq => ?_, fun heq => ?_⟩ <;> rw [heq] at hkind <;> cases hkind

section

open Offside.Expr (Alike AlikeAll Twin relocateAll)

variable {δ : Type} {shift : Shift δ}

mutual

theorem Expression.shifted : ∀ {blocks : δ} {floor : Power} {tokens rest tokens' : List Token}
    {expr : Expr}, Expression shift.file floor tokens expr rest → Shifted shift blocks tokens tokens' →
      (rest = [] → Closes shift) → ∃ expr' rest', Expression shift.file' floor tokens' expr' rest' ∧
        Twin shift.place shift.place' expr expr' ∧ Shifted shift blocks rest rest'
  | _, _, _, _, _, _, .intro hskip hstart hextend, hshifted, hcloses => by
    have hfirst := hshifted.dropWhile (hskip ▸ not_ends_cons)
    rw [hskip] at hfirst
    generalize hskip' : List.dropWhile _ _ = first at hfirst
    obtain _ | ⟨column, hstep, hplace, hothers⟩ := hfirst
    obtain ⟨start', _, hstart', halike, hmiddle⟩ := hstart.shifted (.cons column hstep hplace hothers)
      fun _ => ends_of_suffix hcloses hextend.suffix
    obtain ⟨whole', rest', hextend', halike', hrest⟩ := hextend.shifted halike hmiddle hcloses
    exact ⟨_, rest', .intro hskip' hstart' hextend',
      halike'.stamp (hplace (isSynthetic_of_start hstart)), hrest⟩

/-- Only what ends in a body or in a path goes on if it can. -/
theorem Start.shifted : ∀ {blocks : δ} {tokens rest tokens' : List Token} {expr : Expr},
    Start shift.file tokens expr rest → Shifted shift blocks tokens tokens' →
      (Starts (·.declares = true) tokens → rest = [] → Closes shift) →
        ∃ expr' rest', Start shift.file' tokens' expr' rest' ∧ Alike shift.place shift.place' expr expr' ∧
          Shifted shift blocks rest rest'
  | _, _, _, _, _, .literal h, hshifted, _ => by
    obtain ⟨hkind, hchildren⟩ := Token.leaf_of_literal h
    obtain ⟨_, _, _, rfl, hrest⟩ := hshifted.plain (isPlain_of_literal h)
    exact ⟨_, _, .literal h, .leaf hkind hchildren, hrest⟩
  | _, _, _, _, _, .reference hkind hscope, hshifted, _ => by
    obtain ⟨_, _, _, rfl, hothers⟩ := hshifted.plain (isPlain_of_kind hkind)
    obtain ⟨rest', hscope', hrest⟩ := hscope.shifted hothers
    exact ⟨_, rest', .reference hkind hscope', .leaf nofun rfl, hrest⟩
  | _, _, _, _, _, .unit hopen hclose, hshifted, _ => by
    obtain ⟨_, _, _, rfl, hothers⟩ := hshifted.plain (isPlain_of_kind hopen)
    obtain ⟨_, _, _, rfl, hrest⟩ := hothers.plain (isPlain_of_value hclose)
    exact ⟨_, _, .unit hopen hclose, .leaf nofun rfl, hrest⟩
  | _, _, _, _, _, .group hopen hexpr hclose, hshifted, _ => by
    obtain ⟨_, _, _, rfl, hothers⟩ := hshifted.plain (isPlain_of_kind hopen)
    obtain ⟨expr', _, hexpr', htwin, hmiddle⟩ := hexpr.shifted hothers not_ends_cons
    obtain ⟨_, _, _, rfl, hrest⟩ := hmiddle.plain (isPlain_of_value hclose)
    exact ⟨expr', _, .group hopen hexpr' hclose, htwin.alike, hrest⟩
  | _, _, _, _, _, .arguments hopen hfirst hothers, hshifted, _ => by
    obtain ⟨_, _, _, rfl, hinner⟩ := hshifted.plain (isPlain_of_kind hopen)
    obtain ⟨first', _, hfirst', htwin, hmiddle⟩ :=
      hfirst.shifted hinner (not_ends hothers.takes.1)
    obtain ⟨others', rest', hothers', halike, hlength, hrest⟩ := hothers.shifted hmiddle
    cases others' with
    | nil => cases hlength
    | cons second' others' =>
      exact ⟨_, rest', .arguments hopen hfirst' hothers', .arguments (.cons htwin.alike halike), hrest⟩
  | _, _, _, _, _, .moduleDef hmodule hname hbody, hshifted, hcloses => by
    replace hcloses := hcloses (starts_cons.2 (Token.declares_of_keyword hmodule))
    obtain ⟨_, _, _, rfl, hothers⟩ := hshifted.plain (isPlain_of_keyword hmodule)
    obtain ⟨_, _, _, rfl, hinner⟩ := hothers.plain (isPlain_of_kind hname)
    obtain ⟨body', rest', hbody', hsame, hrest⟩ := hbody.shifted hinner hcloses
    exact ⟨_, rest', .moduleDef hmodule hname hbody',
      .moduleDef (Expr.relocateBlock_toBlock_congr hsame), hrest⟩
  | _, _, _, _, _, .useDef huse hname hpath, hshifted, hcloses => by
    replace hcloses := hcloses (starts_cons.2 (Token.declares_of_keyword huse))
    obtain ⟨_, _, _, rfl, hothers⟩ := hshifted.plain (isPlain_of_keyword huse)
    obtain ⟨_, _, _, rfl, hinner⟩ := hothers.plain (isPlain_of_kind hname)
    obtain ⟨rest', hpath', hrest⟩ := Many.shifted hpath hinner
      (fun h => (hcloses h).ahead fun _ hquiet => hquiet.path) UseStep.shifted
    exact ⟨_, rest', .useDef huse hname hpath', .leaf nofun rfl, hrest⟩
  | _, _, _, _, _, .functionDef hfn hname hparams hresult hbody, hshifted, hcloses => by
    replace hcloses := hcloses (starts_cons.2 (Token.declares_of_keyword hfn))
    obtain ⟨_, _, _, rfl, hothers⟩ := hshifted.plain (isPlain_of_keyword hfn)
    obtain ⟨_, _, _, rfl, hinner⟩ := hothers.plain (isPlain_of_kind hname)
    have hsilent := not_ends (p := Silent shift) hbody.takes.1
    obtain ⟨_, hparams', hmiddle⟩ := hparams.shifted hinner (ends_of_suffix hsilent hresult.suffix)
    obtain ⟨_, hresult', hmiddle'⟩ := hresult.shifted hmiddle hsilent
    obtain ⟨body', rest', hbody', hsame, hrest⟩ := hbody.shifted hmiddle' hcloses
    exact ⟨_, rest', .functionDef hfn hname hparams' hresult' hbody',
      .functionDef (Expr.relocateBlock_toBlock_congr hsame), hrest⟩
  | _, _, _, _, _, .ifElse hif hcondition htrue hskip helse hfalse, hshifted, hcloses => by
    replace hcloses := hcloses (starts_cons.2 (Token.declares_of_keyword hif))
    obtain ⟨_, _, _, rfl, hothers⟩ := hshifted.plain (isPlain_of_keyword hif)
    obtain ⟨condition', _, hcondition', htwin, hshifted₁⟩ :=
      hcondition.shifted hothers (not_ends htrue.takes.1)
    obtain ⟨whenTrue', _, htrue', hsame₁, hshifted₂⟩ :=
      htrue.shifted hshifted₁ (ends_of_suffix (hskip ▸ not_ends_cons) (List.dropWhile_suffix _))
    have hnext := hshifted₂.dropWhile (hskip ▸ not_ends_cons)
    rw [hskip] at hnext
    generalize hskip' : List.dropWhile _ _ = next at hnext
    obtain ⟨_, _, _, rfl, hshifted₃⟩ := hnext.plain (isPlain_of_keyword helse)
    obtain ⟨whenFalse', rest', hfalse', hsame₂, hrest⟩ := hfalse.shifted hshifted₃ hcloses
    exact ⟨_, rest', .ifElse hif hcondition' htrue' hskip' helse hfalse',
      .conditional htwin.alike (Expr.relocateBlock_toBlock_congr hsame₁)
        (Expr.relocateBlock_toBlock_congr hsame₂), hrest⟩
  | _, _, _, _, _, .ifOnly hif hcondition htrue hrest helse, hshifted, hcloses => by
    replace hcloses := hcloses (starts_cons.2 (Token.declares_of_keyword hif))
    obtain ⟨_, _, _, rfl, hothers⟩ := hshifted.plain (isPlain_of_keyword hif)
    obtain ⟨condition', _, hcondition', htwin, hshifted₁⟩ :=
      hcondition.shifted hothers (not_ends htrue.takes.1)
    subst hrest
    obtain ⟨whenTrue', _, htrue', hsame₁, hshifted₂⟩ :=
      htrue.shifted hshifted₁ (ends_of_suffix hcloses (List.dropWhile_suffix _))
    have hshifted₃ := hshifted₂.dropWhile fun h _ => (hcloses h).skip
    -- What stands behind the phrase in the other text must not be taken for its `else`.
    exact ⟨_, _, .ifOnly hif hcondition' htrue' rfl (helse.shifted hshifted₃ fun h =>
        (hcloses h).ahead fun _ hquiet => hquiet.conditional),
      .conditional htwin.alike (Expr.relocateBlock_toBlock_congr hsame₁) rfl, hshifted₃⟩

theorem Extension.shifted : ∀ {blocks : δ} {floor : Power} {left whole left' : Expr}
    {tokens rest tokens' : List Token}, Extension shift.file floor left tokens whole rest →
      Alike shift.place shift.place' left left' → Shifted shift blocks tokens tokens' →
        (rest = [] → Closes shift) → ∃ whole' rest', Extension shift.file' floor left' tokens' whole' rest' ∧
          Alike shift.place shift.place' whole whole' ∧ Shifted shift blocks rest rest'
  | _, _, _, _, _, _, _, _, .stop h, hleft, hshifted, hcloses =>
    ⟨_, _, .stop (h.shifted hshifted fun h => (hcloses h).ahead fun _ hquiet hfloor =>
      Nat.not_lt_zero _ (hquiet.power ▸ hfloor)), hleft, hshifted⟩
  | _, _, _, _, _, _, _, _, .binary hpower hfloor hright hrest, hleft, hshifted, hcloses => by
    obtain ⟨_, _, _, rfl, hothers⟩ := hshifted.plain (isPlain_of_kind (kind_of_binaryPower? hpower))
    obtain ⟨right', _, hright', htwin, hmiddle⟩ :=
      hright.shifted hothers (ends_of_suffix hcloses hrest.suffix)
    obtain ⟨whole', rest', hrest', hwhole, hshifted'⟩ :=
      hrest.shifted (.binary hleft htwin.alike) hmiddle hcloses
    exact ⟨whole', rest', .binary hpower hfloor hright' hrest', hwhole, hshifted'⟩
  | _, _, _, _, _, _, _, _, .assign hequals hfloor hvalue hrest, hleft, hshifted, hcloses => by
    obtain ⟨_, _, _, rfl, hothers⟩ := hshifted.plain (isPlain_of_value hequals)
    obtain ⟨value', _, hvalue', htwin, hmiddle⟩ :=
      hvalue.shifted hothers (ends_of_suffix hcloses hrest.suffix)
    obtain ⟨whole', rest', hrest', hwhole, hshifted'⟩ :=
      hrest.shifted (.assign hleft htwin.alike) hmiddle hcloses
    exact ⟨whole', rest', .assign hequals hfloor hvalue' hrest', hwhole, hshifted'⟩
  | _, _, _, _, _, _, _, _, .call harrow hfloor htarget hrest, hleft, hshifted, hcloses => by
    obtain ⟨_, _, _, rfl, hothers⟩ := hshifted.plain (isPlain_of_value harrow)
    obtain ⟨target', _, htarget', htwin, hmiddle⟩ :=
      htarget.shifted hothers (ends_of_suffix hcloses hrest.suffix)
    obtain ⟨whole', rest', hrest', hwhole, hshifted'⟩ :=
      hrest.shifted (.call htwin.alike hleft.callArguments) hmiddle hcloses
    exact ⟨whole', rest', .call harrow hfloor htarget' hrest', hwhole, hshifted'⟩

theorem Arguments.shifted : ∀ {blocks : δ} {tokens rest tokens' : List Token} {args : List Expr},
    Arguments shift.file tokens args rest → Shifted shift blocks tokens tokens' →
      ∃ args' rest', Arguments shift.file' tokens' args' rest' ∧ AlikeAll shift.place shift.place' args args' ∧
        args.length = args'.length ∧ Shifted shift blocks rest rest'
  | _, _, _, _, _, .close hclose, hshifted => by
    obtain ⟨_, _, _, rfl, hrest⟩ := hshifted.plain (isPlain_of_value hclose)
    exact ⟨_, _, .close hclose, .nil, rfl, hrest⟩
  | _, _, _, _, _, .next hcomma harg hothers, hshifted => by
    obtain ⟨_, _, _, rfl, hinner⟩ := hshifted.plain (isPlain_of_value hcomma)
    obtain ⟨arg', _, harg', htwin, hmiddle⟩ := harg.shifted hinner (not_ends hothers.takes.1)
    obtain ⟨others', rest', hothers', halike, hlength, hrest⟩ := hothers.shifted hmiddle
    exact ⟨arg' :: others', rest', .next hcomma harg' hothers', .cons htwin.alike halike,
      congrArg Nat.succ hlength, hrest⟩

theorem Body.shifted : ∀ {blocks : δ} {tokens rest tokens' : List Token} {body : Expr},
    Body shift.file tokens body rest → Shifted shift blocks tokens tokens' → (rest = [] → Closes shift) →
      ∃ body' rest', Body shift.file' tokens' body' rest' ∧
        body.relocate shift.place = body'.relocate shift.place' ∧ Shifted shift blocks rest rest'
  | _, _, _, _, _, .block hskip hindent hcontents hrest, hshifted, hcloses => by
    have hfirst := hshifted.dropWhile (hskip ▸ not_ends_cons)
    rw [hskip] at hfirst
    generalize hskip' : List.dropWhile _ _ = first at hfirst
    obtain ⟨_, _, _, rfl, hothers⟩ := hfirst.indent hindent
    subst hrest
    replace hcloses := ends_of_suffix hcloses (pastNewline_suffix _)
    obtain ⟨contents', _, hcontents', hsame, hmiddle⟩ :=
      Statements.shifted hcontents hothers (ends_of_suffix hcloses (List.tail_suffix _))
    obtain ⟨_, hend⟩ := hcontents.exists_stop
    obtain ⟨_, hend'⟩ := hcontents'.exists_stop
    refine ⟨_, _, .block hskip' hindent hcontents' rfl, ?_,
      shifted_endsBlock hend hmiddle hend' hcloses⟩
    rw [Expr.relocate, Expr.relocate, Expr.relocateBlock, Expr.relocateBlock, hsame]
  | _, _, _, _, _, .single hexpr, hshifted, hcloses => by
    obtain ⟨expr', rest', hexpr', htwin, hrest⟩ := hexpr.shifted hshifted hcloses
    exact ⟨expr', rest', .single hexpr', htwin.same, hrest⟩

theorem Statements.shifted : ∀ {blocks : δ} {tokens rest tokens' : List Token}
    {contents : List Expr}, Statements shift.file tokens contents rest →
      Shifted shift (shift.inside blocks) tokens tokens' → (rest = [] → Closes shift) →
        ∃ contents' rest', Statements shift.file' tokens' contents' rest' ∧
          relocateAll shift.place contents = relocateAll shift.place' contents' ∧
            Shifted shift (shift.inside blocks) rest rest'
  | blocks, _, _, _, _, .stop hend, hshifted, hcloses => by
    obtain ⟨rfl, hend⟩ := hend
    have hrest := hshifted.dropWhile fun h _ => (hcloses h).skip
    refine ⟨[], _, .stop ⟨rfl, fun token htoken => ?_⟩, rfl, hrest⟩
    have hahead : Ahead (fun token => token.kind = .outdent ∨ token.isNewline = true) _ :=
      Ahead.shifted (fun token htoken => .inl (hend token htoken)) hrest
        fun h _ => (hcloses h).outdent
    exact (hahead token htoken).resolve_right (ahead_dropWhile _ _ token htoken)
  | _, _, _, _, _, .more hexpr hothers, hshifted, hcloses => by
    obtain ⟨expr', _, hexpr', htwin, hmiddle⟩ :=
      hexpr.shifted hshifted (ends_of_suffix hcloses (Statements.suffix hothers))
    obtain ⟨others', rest', hothers', hsame, hrest⟩ := Statements.shifted hothers hmiddle hcloses
    exact ⟨expr' :: others', rest', .more hexpr' hothers',
      by rw [relocateAll, relocateAll, htwin.same, hsame], hrest⟩

end

/-! ## Programs -/

/-- Newline tokens ahead make no difference to a program. -/
theorem program_dropWhile_iff {file : String} {tokens rest : List Token} {contents : List Expr} :
    Program file (tokens.dropWhile Token.isNewline) contents rest ↔
      Program file tokens contents rest := by
  have hidem : (tokens.dropWhile Token.isNewline).dropWhile Token.isNewline =
      tokens.dropWhile Token.isNewline := dropWhile_eq_self (ahead_dropWhile _ _)
  constructor
  · intro h
    obtain ⟨hstop⟩ | ⟨hexpr, hrest⟩ := h
    · exact .stop ⟨hidem ▸ hstop.1, hstop.2⟩
    · exact .more (Grammar.expression_dropWhile_iff.1 hexpr) hrest
  · intro h
    obtain ⟨hstop⟩ | ⟨hexpr, hrest⟩ := h
    · exact .stop ⟨hidem.trans hstop.1, hstop.2⟩
    · exact .more (Grammar.expression_dropWhile_iff.2 hexpr) hrest

/-- In the other text the statements stand as well, before those of any program there. -/
theorem Program.shifted {blocks : δ} {tokens rest tokens' : List Token} {contents : List Expr}
    (h : Program shift.file tokens contents rest) (hshifted : Shifted shift blocks tokens tokens')
    (hcloses : Closes shift) : ∃ contents' last,
      relocateAll shift.place contents = relocateAll shift.place' contents' ∧
        shift.ends blocks last ∧ ∀ others rest', Program shift.file' last others rest' →
          Program shift.file' tokens' (contents' ++ others) rest' := by
  induction h generalizing tokens' with
  | stop hend =>
    obtain ⟨hskip, rfl⟩ := hend
    have hlast := hshifted.dropWhile fun _ _ => hcloses.skip
    rw [hskip] at hlast
    obtain hends | _ := hlast
    exact ⟨[], _, rfl, hends, fun _ _ => program_dropWhile_iff.1⟩
  | more hexpr _ ih =>
    obtain ⟨expr', _, hexpr', htwin, hmiddle⟩ := hexpr.shifted hshifted fun _ => hcloses
    obtain ⟨contents', last, hsame, hends, hothers⟩ := ih hmiddle
    refine ⟨expr' :: contents', last, ?_, hends, fun others rest' hprogram =>
      .more hexpr' (hothers others rest' hprogram)⟩
    rw [relocateAll, relocateAll, htwin.same, hsame]

end

end Phrase

end Offside
