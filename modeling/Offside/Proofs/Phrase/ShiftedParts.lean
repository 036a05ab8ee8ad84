import Offside.Proofs.Phrase.Expression
import Offside.Proofs.Token.Shifted

/-!
# Parts of phrases in another text

Where tokens stand in another text (`Token.Shifted`), they spell the same there. What stands there
behind them may not go on with a phrase that ends where the tokens end. Types and the parts of
declarations ask that nothing stands there (`Phrase.Silent`); for bodies and expressions it is enough
that the open blocks are closed there and that what follows begins a statement (`Phrase.Closes`).
-/

namespace Offside

/-- Whether the token begins a declaration or a conditional. -/
def Token.declares (token : Token) : Bool :=
  ["module", "use", "fn", "if"].any token.isKeyword

theorem Token.declares_of_keyword {token : Token} {text : String}
    (h : token.isKeyword text = true) (htext : text ∈ ["module", "use", "fn", "if"] := by decide) :
    token.declares = true :=
  List.any_eq_true.2 ⟨text, htext, h⟩

/-- A token that goes on with no expression, path or conditional before it. -/
structure Token.Quiet (token : Token) : Prop where
  power : token.power = .lowest
  path : token.value ≠ "::"
  conditional : ¬ token.isKeyword "else" = true

namespace Phrase

open Token (Shift Shifted isPlain_of_value isPlain_of_kind isPlain_of_keyword)

/-- Nothing stands behind the tokens. -/
def Silent {δ : Type} (shift : Shift δ) : Prop :=
  ∀ blocks tokens, shift.ends blocks tokens → tokens = []

/-- What stands behind the tokens closes the open blocks and is quiet. -/
structure Closes {δ : Type} (shift : Shift δ) : Prop where
  quiet {blocks : δ} {tokens : List Token} : shift.ends blocks tokens → Ahead Token.Quiet tokens
  skip {blocks : δ} {tokens : List Token} : shift.ends blocks tokens →
    shift.ends blocks (tokens.dropWhile Token.isNewline)
  past {blocks : δ} {tokens : List Token} : shift.ends blocks tokens →
    shift.ends blocks (pastNewline tokens)
  outdent {blocks : δ} {tokens : List Token} : shift.ends (shift.inside blocks) tokens →
    Ahead (fun token => token.kind = .outdent ∨ token.isNewline = true) tokens
  tail {blocks : δ} {tokens : List Token} : shift.ends (shift.inside blocks) tokens →
    shift.ends blocks (tokens.dropWhile Token.isNewline).tail

section

variable {δ : Type} {shift : Shift δ} {blocks : δ} {tokens rest middle tokens' : List Token}

/-- If the rest is the end, then so is what comes after it. -/
theorem ends_of_suffix {p : Prop} (h : rest = [] → p) (hsuffix : rest <:+ middle) :
    middle = [] → p := by
  intro hnil
  rw [hnil, List.suffix_nil] at hsuffix
  exact h hsuffix

theorem not_ends {p : Prop} (h : rest ≠ []) : rest = [] → p :=
  fun hnil => absurd hnil h

theorem not_ends_cons {p : Prop} {token : Token} : token :: rest = [] → p :=
  not_ends (List.cons_ne_nil _ _)

/-- What holds of the token ahead wherever it stands holds in the other text. -/
theorem Ahead.shifted {p : Token → Prop} (h : Ahead p tokens)
    (hshifted : Shifted shift blocks tokens tokens')
    (hends : tokens = [] → ∀ others, shift.ends blocks others → Ahead p others)
    (hp : ∀ token line column, p token → p (token.moved line column) := by
      exact fun _ _ _ h => h) : Ahead p tokens' := by
  cases hshifted with
  | nil hnil => exact hends rfl _ hnil
  | cons column => exact ahead_cons.2 (hp _ _ column (ahead_cons.1 h))

theorem Silent.ahead {p : Token → Prop} (h : Silent shift) (others : List Token)
    (hends : shift.ends blocks others) : Ahead p others := by
  rw [h _ _ hends]
  exact ahead_nil

theorem Closes.ahead {p : Token → Prop} (h : Closes shift) (hp : ∀ token, token.Quiet → p token)
    (others : List Token) (hends : shift.ends blocks others) : Ahead p others :=
  fun token htoken => hp token (h.quiet hends token htoken)

theorem shifted_pastNewline (h : Shifted shift blocks tokens tokens')
    (hcloses : tokens = [] → Closes shift) :
    Shifted shift blocks (pastNewline tokens) (pastNewline tokens') := by
  cases tokens with
  | nil =>
    obtain h | _ := h
    exact .nil ((hcloses rfl).past h)
  | cons token tokens =>
    by_cases hnewline : token.isNewline = true
    · obtain ⟨line, column, others, rfl, hothers⟩ :=
        h.plain (isPlain_of_kind (beq_iff_eq.1 hnewline))
      rw [pastNewline, pastNewline, if_pos hnewline, if_pos (by exact hnewline)]
      exact hothers
    · rw [pastNewline, if_neg hnewline]
      obtain _ | ⟨column, hstep, hplace, h⟩ := h
      rw [pastNewline, if_neg (by exact hnewline)]
      exact .cons column hstep hplace h

/-! ## Repetition -/

section

variable {α : Type} {item : Phrase α} {found : List α}

theorem Many.shifted {stop : Token → Prop} (h : Many item (Before stop) tokens found rest)
    (hshifted : Shifted shift blocks tokens tokens')
    (hends : rest = [] → ∀ others, shift.ends blocks others → Ahead stop others)
    (hitem : ∀ {tokens rest tokens' : List Token} {a : α}, item tokens a rest →
      Shifted shift blocks tokens tokens' →
        ∃ rest', item tokens' a rest' ∧ Shifted shift blocks rest rest')
    (hstop : ∀ token line column, stop token → stop (token.moved line column) := by
      exact fun _ _ _ h => h) :
    ∃ rest', Many item (Before stop) tokens' found rest' ∧ Shifted shift blocks rest rest' := by
  induction h generalizing tokens' with
  | stop h =>
    obtain ⟨hahead, rfl⟩ := h
    exact ⟨tokens', .stop ⟨hahead.shifted hshifted hends hstop, rfl⟩, hshifted⟩
  | more h _ ih =>
    obtain ⟨middle', hfirst, hmiddle⟩ := hitem h hshifted
    obtain ⟨rest', hrest, hshifted'⟩ := ih hmiddle hends
    exact ⟨rest', .more hfirst hrest, hshifted'⟩

theorem Items.shifted {closing : String} (h : Items closing item tokens found rest)
    (hshifted : Shifted shift blocks tokens tokens') (hclosing : closing ≠ "")
    (htakes : ∀ tokens a rest, item tokens a rest → Takes tokens rest)
    (hitem : ∀ {tokens rest tokens' : List Token} {a : α}, item tokens a rest →
      Shifted shift blocks tokens tokens' → rest ≠ [] →
        ∃ rest', item tokens' a rest' ∧ Shifted shift blocks rest rest') :
    ∃ rest', Items closing item tokens' found rest' ∧ Shifted shift blocks rest rest' := by
  induction h generalizing tokens' with
  | nil hclose =>
    obtain ⟨_, _, _, rfl, hrest⟩ := hshifted.plain (isPlain_of_value hclose hclosing)
    exact ⟨_, .nil hclose, hrest⟩
  | last hopen h hclose =>
    have hopen' := hopen.shifted hshifted (not_ends (htakes _ _ _ h).1)
    obtain ⟨_, hlast, hmiddle⟩ := hitem h hshifted (List.cons_ne_nil _ _)
    obtain ⟨_, _, _, rfl, hrest⟩ := hmiddle.plain (isPlain_of_value hclose hclosing)
    exact ⟨_, .last hopen' hlast hclose, hrest⟩
  | more hopen h hcomma _ ih =>
    have hopen' := hopen.shifted hshifted (not_ends (htakes _ _ _ h).1)
    obtain ⟨_, hfirst, hmiddle⟩ := hitem h hshifted (List.cons_ne_nil _ _)
    obtain ⟨_, _, _, rfl, hlater⟩ := hmiddle.plain (isPlain_of_value hcomma)
    obtain ⟨rest', hrest, hshifted'⟩ := ih hlater
    exact ⟨rest', .more hopen' hfirst hcomma hrest, hshifted'⟩

end

/-! ## Types -/

theorem PathStep.shifted {name : String} (h : PathStep tokens name rest)
    (hshifted : Shifted shift blocks tokens tokens') :
    ∃ rest', PathStep tokens' name rest' ∧ Shifted shift blocks rest rest' := by
  obtain ⟨hcolons, hname⟩ := h
  obtain ⟨_, _, _, rfl, hothers⟩ := hshifted.plain (isPlain_of_value hcolons)
  obtain ⟨_, _, _, rfl, hrest⟩ := hothers.plain (isPlain_of_kind hname)
  exact ⟨_, .intro hcolons hname, hrest⟩

mutual

theorem TypeTerm.shifted : ∀ {tokens rest tokens' : List Token} {type : TypeExpr},
    TypeTerm tokens type rest → Shifted shift blocks tokens tokens' → (rest = [] → Silent shift) →
      ∃ rest', TypeTerm tokens' type rest' ∧ Shifted shift blocks rest rest'
  | _, _, _, _, .tuple hopen hentries, hshifted, _ => by
    obtain ⟨_, _, _, rfl, hothers⟩ := hshifted.plain (isPlain_of_value hopen)
    obtain ⟨rest', hentries', hrest⟩ := shifted_entries hentries hothers
    exact ⟨rest', .tuple hopen hentries', hrest⟩
  | _, _, _, _, .array hopen hclose helement, hshifted, hsilent => by
    obtain ⟨_, _, _, rfl, hothers⟩ := hshifted.plain (isPlain_of_value hopen)
    obtain ⟨_, _, _, rfl, hinner⟩ := hothers.plain (isPlain_of_value hclose)
    obtain ⟨rest', helement', hrest⟩ := helement.shifted hinner hsilent
    exact ⟨rest', .array hopen hclose helement', hrest⟩
  | _, _, _, _, .function hfn hparams hresult, hshifted, hsilent => by
    obtain ⟨_, _, _, rfl, hothers⟩ := hshifted.plain (isPlain_of_keyword hfn)
    obtain ⟨_, hparams', hmiddle⟩ :=
      hparams.shifted hothers (ends_of_suffix hsilent hresult.suffix)
    obtain ⟨rest', hresult', hrest⟩ := hresult.shifted hmiddle hsilent
    exact ⟨rest', .function hfn hparams' hresult', hrest⟩
  | _, _, _, _, .named hname hpath, hshifted, hsilent => by
    obtain ⟨_, _, _, rfl, hothers⟩ := hshifted.plain (isPlain_of_kind hname)
    obtain ⟨rest', hpath', hrest⟩ :=
      Many.shifted hpath hothers (fun h => (hsilent h).ahead) PathStep.shifted
    exact ⟨rest', .named hname hpath', hrest⟩

theorem shifted_entries : ∀ {tokens rest tokens' : List Token}
    {entries : List (Option String × TypeExpr)}, Items ")" Entry tokens entries rest →
      Shifted shift blocks tokens tokens' →
        ∃ rest', Items ")" Entry tokens' entries rest' ∧ Shifted shift blocks rest rest'
  | _, _, _, _, .nil hclose, hshifted => by
    obtain ⟨_, _, _, rfl, hrest⟩ := hshifted.plain (isPlain_of_value hclose)
    exact ⟨_, .nil hclose, hrest⟩
  | _, _, _, _, .last hopen hitem hclose, hshifted => by
    have hopen' := hopen.shifted hshifted (not_ends hitem.takes.1)
    obtain ⟨_, hitem', hmiddle⟩ := hitem.shifted hshifted not_ends_cons
    obtain ⟨_, _, _, rfl, hrest⟩ := hmiddle.plain (isPlain_of_value hclose)
    exact ⟨_, .last hopen' hitem' hclose, hrest⟩
  | _, _, _, _, .more hopen hitem hcomma hothers, hshifted => by
    have hopen' := hopen.shifted hshifted (not_ends hitem.takes.1)
    obtain ⟨_, hitem', hmiddle⟩ := hitem.shifted hshifted not_ends_cons
    obtain ⟨_, _, _, rfl, hlater⟩ := hmiddle.plain (isPlain_of_value hcomma)
    obtain ⟨rest', hothers', hrest⟩ := shifted_entries hothers hlater
    exact ⟨rest', .more hopen' hitem' hcomma hothers', hrest⟩

theorem Entry.shifted : ∀ {tokens rest tokens' : List Token} {entry : Option String × TypeExpr},
    Entry tokens entry rest → Shifted shift blocks tokens tokens' → (rest = [] → Silent shift) →
      ∃ rest', Entry tokens' entry rest' ∧ Shifted shift blocks rest rest'
  | _, _, _, _, .named hname hcolon htype, hshifted, hsilent => by
    obtain ⟨_, _, _, rfl, hothers⟩ := hshifted.plain (isPlain_of_kind hname)
    obtain ⟨_, _, _, rfl, hinner⟩ := hothers.plain (isPlain_of_value hcolon)
    obtain ⟨rest', htype', hrest⟩ := htype.shifted hinner hsilent
    exact ⟨rest', .named hname hcolon htype', hrest⟩
  | _, _, _, _, .unnamed hname htype, hshifted, hsilent => by
    have hname' := hname.shifted hshifted (not_ends htype.takes.1)
    obtain ⟨rest', htype', hrest⟩ := htype.shifted hshifted hsilent
    exact ⟨rest', .unnamed hname' htype', hrest⟩

theorem shifted_types : ∀ {tokens rest tokens' : List Token} {types : List TypeExpr},
    Items ")" TypeTerm tokens types rest → Shifted shift blocks tokens tokens' →
      ∃ rest', Items ")" TypeTerm tokens' types rest' ∧ Shifted shift blocks rest rest'
  | _, _, _, _, .nil hclose, hshifted => by
    obtain ⟨_, _, _, rfl, hrest⟩ := hshifted.plain (isPlain_of_value hclose)
    exact ⟨_, .nil hclose, hrest⟩
  | _, _, _, _, .last hopen hitem hclose, hshifted => by
    have hopen' := hopen.shifted hshifted (not_ends hitem.takes.1)
    obtain ⟨_, hitem', hmiddle⟩ := hitem.shifted hshifted not_ends_cons
    obtain ⟨_, _, _, rfl, hrest⟩ := hmiddle.plain (isPlain_of_value hclose)
    exact ⟨_, .last hopen' hitem' hclose, hrest⟩
  | _, _, _, _, .more hopen hitem hcomma hothers, hshifted => by
    have hopen' := hopen.shifted hshifted (not_ends hitem.takes.1)
    obtain ⟨_, hitem', hmiddle⟩ := hitem.shifted hshifted not_ends_cons
    obtain ⟨_, _, _, rfl, hlater⟩ := hmiddle.plain (isPlain_of_value hcomma)
    obtain ⟨rest', hothers', hrest⟩ := shifted_types hothers hlater
    exact ⟨rest', .more hopen' hitem' hcomma hothers', hrest⟩

theorem Domain.shifted : ∀ {tokens rest tokens' : List Token} {params : List TypeExpr},
    Domain tokens params rest → Shifted shift blocks tokens tokens' → (rest = [] → Silent shift) →
      ∃ rest', Domain tokens' params rest' ∧ Shifted shift blocks rest rest'
  | _, _, _, _, .list hopen hparams, hshifted, _ => by
    obtain ⟨_, _, _, rfl, hothers⟩ := hshifted.plain (isPlain_of_value hopen)
    obtain ⟨rest', hparams', hrest⟩ := shifted_types hparams hothers
    exact ⟨rest', .list hopen hparams', hrest⟩
  | _, _, _, _, .single hopen htype, hshifted, hsilent => by
    have hopen' := hopen.shifted hshifted (not_ends htype.takes.1)
    obtain ⟨rest', htype', hrest⟩ := htype.shifted hshifted hsilent
    exact ⟨rest', .single hopen' htype', hrest⟩
  | _, _, _, _, .none h, hshifted, hsilent =>
    ⟨_, .none (h.shifted hshifted fun hnil => (hsilent hnil).ahead), hshifted⟩

theorem Codomain.shifted : ∀ {tokens rest tokens' : List Token} {result : Option TypeExpr},
    Codomain tokens result rest → Shifted shift blocks tokens tokens' →
      (rest = [] → Silent shift) →
        ∃ rest', Codomain tokens' result rest' ∧ Shifted shift blocks rest rest'
  | _, _, _, _, .some harrow htype, hshifted, hsilent => by
    obtain ⟨_, _, _, rfl, hothers⟩ := hshifted.plain (isPlain_of_value harrow)
    obtain ⟨rest', htype', hrest⟩ := htype.shifted hothers hsilent
    exact ⟨rest', .some harrow htype', hrest⟩
  | _, _, _, _, .none h, hshifted, hsilent =>
    ⟨_, .none (h.shifted hshifted fun hnil => (hsilent hnil).ahead), hshifted⟩

end

/-! ## Parts of declarations -/

theorem ModuleName.shifted {name : String} (h : ModuleName tokens name rest)
    (hshifted : Shifted shift blocks tokens tokens') :
    ∃ rest', ModuleName tokens' name rest' ∧ Shifted shift blocks rest rest' := by
  obtain ⟨token, rfl, hkind, rfl⟩ := h
  obtain ⟨line, column, _, rfl, hrest⟩ := hshifted.plain (isPlain_of_kind hkind)
  exact ⟨_, ⟨token.moved line column, rfl, hkind, rfl⟩, hrest⟩

theorem Segment.shifted {segment : UseSegment} (h : Segment tokens segment rest)
    (hshifted : Shifted shift blocks tokens tokens') :
    ∃ rest', Segment tokens' segment rest' ∧ Shifted shift blocks rest rest' := by
  cases h with
  | module hname =>
    obtain ⟨_, _, _, rfl, hrest⟩ := hshifted.plain (isPlain_of_kind hname)
    exact ⟨_, .module hname, hrest⟩
  | alternatives hbrace hnames =>
    obtain ⟨_, _, _, rfl, hothers⟩ := hshifted.plain (isPlain_of_value hbrace)
    obtain ⟨rest', hnames', hrest⟩ := hnames.shifted hothers (by decide)
      (fun _ _ _ => ModuleName.takes) fun hname hnext _ => hname.shifted hnext
    exact ⟨rest', .alternatives hbrace hnames', hrest⟩

theorem UseStep.shifted {segment : UseSegment} (h : UseStep tokens segment rest)
    (hshifted : Shifted shift blocks tokens tokens') :
    ∃ rest', UseStep tokens' segment rest' ∧ Shifted shift blocks rest rest' := by
  obtain ⟨hcolons, hsegment⟩ := h
  obtain ⟨_, _, _, rfl, hothers⟩ := hshifted.plain (isPlain_of_value hcolons)
  obtain ⟨rest', hsegment', hrest⟩ := hsegment.shifted hothers
  exact ⟨rest', .intro hcolons hsegment', hrest⟩

theorem Scope.shifted {path : List String × String} (h : Scope tokens path rest)
    (hshifted : Shifted shift blocks tokens tokens') :
    ∃ rest', Scope tokens' path rest' ∧ Shifted shift blocks rest rest' := by
  induction h generalizing tokens' with
  | name hcolons hname =>
    obtain ⟨_, _, _, rfl, hothers⟩ := hshifted.plain (isPlain_of_value hcolons)
    obtain ⟨_, _, _, rfl, hrest⟩ := hothers.plain (isPlain_of_kind hname)
    exact ⟨_, .name hcolons hname, hrest⟩
  | module hcolons hmodule _ ih =>
    obtain ⟨_, _, _, rfl, hothers⟩ := hshifted.plain (isPlain_of_value hcolons)
    obtain ⟨_, _, _, rfl, hinner⟩ := hothers.plain (isPlain_of_kind hmodule)
    obtain ⟨rest', hscope, hrest⟩ := ih hinner
    exact ⟨rest', .module hcolons hmodule hscope, hrest⟩

theorem Param.shifted {param : Parameter} (h : Param tokens param rest)
    (hshifted : Shifted shift blocks tokens tokens') (hsilent : rest = [] → Silent shift) :
    ∃ rest', Param tokens' param rest' ∧ Shifted shift blocks rest rest' := by
  obtain ⟨hname, hcolon, htype⟩ := h
  obtain ⟨_, _, _, rfl, hothers⟩ := hshifted.plain (isPlain_of_kind hname)
  obtain ⟨_, _, _, rfl, hinner⟩ := hothers.plain (isPlain_of_value hcolon)
  obtain ⟨rest', htype', hrest⟩ := htype.shifted hinner hsilent
  exact ⟨rest', .intro hname hcolon htype', hrest⟩

theorem Params.shifted {params : List Parameter} (h : Params tokens params rest)
    (hshifted : Shifted shift blocks tokens tokens') (hsilent : rest = [] → Silent shift) :
    ∃ rest', Params tokens' params rest' ∧ Shifted shift blocks rest rest' := by
  cases h with
  | single hparam =>
    obtain ⟨rest', hparam', hrest⟩ := hparam.shifted hshifted hsilent
    exact ⟨rest', .single hparam', hrest⟩
  | list hopen hparams =>
    obtain ⟨_, _, _, rfl, hothers⟩ := hshifted.plain (isPlain_of_kind hopen)
    obtain ⟨rest', hparams', hrest⟩ := hparams.shifted hothers (by decide)
      (fun _ _ _ => Param.takes) fun hparam hnext hne => hparam.shifted hnext (not_ends hne)
    exact ⟨rest', .list hopen hparams', hrest⟩
  | none h =>
    exact ⟨_, .none (h.shifted hshifted fun hnil => (hsilent hnil).ahead), hshifted⟩

/-! ## Blocks -/

/-- The end of a block closes it in the other text as well. -/
theorem shifted_endsBlock {others others' : List Token}
    (hend : EndsBlock others middle) (h : Shifted shift (shift.inside blocks) middle tokens')
    (hend' : EndsBlock others' tokens') (hcloses : middle.tail = [] → Closes shift) :
    Shifted shift blocks (pastNewline middle.tail) (pastNewline tokens'.tail) := by
  refine shifted_pastNewline ?_ hcloses
  cases middle with
  | nil =>
    obtain h | _ := h
    have htail := (hcloses rfl).tail h
    rw [dropWhile_eq_self (hend'.1 ▸ ahead_dropWhile _ _)] at htail
    exact .nil htail
  | cons token tokens =>
    obtain ⟨_, _, _, rfl, hrest⟩ := h.outdent (ahead_cons.1 hend.2)
    exact hrest

end

end Phrase

end Offside
