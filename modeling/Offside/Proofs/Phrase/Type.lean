import Offside.Proofs.Cursor.Loops
import Offside.Proofs.Grammar.Rounds

/-!
# The phrases of types

`Phrase.TypeTerm` says which tokens spell a type where the parser reads one: a phrase takes as many
tokens as it can, so that an arrow belongs to the innermost function. `TypeExpr.parses_parse` ties
the parser to it.
-/

namespace Offside

namespace Phrase

/-- Nothing, before a token that satisfies `p` or at the end. -/
def Before (p : Token → Prop) (tokens rest : List Token) : Prop :=
  Ahead p tokens ∧ rest = tokens

/-- A step of a path: `::` and a name. -/
inductive PathStep : Phrase String
  | intro {colons name : Token} {rest : List Token} (hcolons : colons.value = "::")
    (hname : name.kind = .constant) : PathStep (colons :: name :: rest) name.value rest

/-- What follows the first name of a path. -/
abbrev Path : Phrase (List String) :=
  Many PathStep (Before (·.value ≠ "::"))

mutual

inductive TypeTerm : Phrase TypeExpr
  | tuple {token : Token} {tokens rest : List Token} {entries : List (Option String × TypeExpr)}
    (hopen : token.value = "(") (hentries : Items ")" Entry tokens entries rest) :
    TypeTerm (token :: tokens) (.tuple entries) rest
  | array {token close : Token} {tokens rest : List Token} {element : TypeExpr}
    (hopen : token.value = "[") (hclose : close.value = "]")
    (helement : TypeTerm tokens element rest) :
    TypeTerm (token :: close :: tokens) (.array element) rest
  | function {token : Token} {tokens middle rest : List Token} {params : List TypeExpr}
    {result : Option TypeExpr} (hfn : token.isKeyword "fn" = true)
    (hparams : Domain tokens params middle) (hresult : Codomain middle result rest) :
    TypeTerm (token :: tokens) (.function params result) rest
  | named {token : Token} {tokens rest : List Token} {path : List String}
    (hname : token.kind = .constant) (hpath : Path tokens path rest) :
    TypeTerm (token :: tokens) (.named (token.value :: path)) rest

/-- An entry of a tuple. -/
inductive Entry : Phrase (Option String × TypeExpr)
  | named {name colon : Token} {tokens rest : List Token} {type : TypeExpr}
    (hname : name.kind = .identifier) (hcolon : colon.value = ":")
    (htype : TypeTerm tokens type rest) :
    Entry (name :: colon :: tokens) (some name.value, type) rest
  | unnamed {tokens rest : List Token} {type : TypeExpr}
    (hname : Ahead (·.kind ≠ .identifier) tokens) (htype : TypeTerm tokens type rest) :
    Entry tokens (none, type) rest

/-- The parameters of a function type. -/
inductive Domain : Phrase (List TypeExpr)
  | list {token : Token} {tokens rest : List Token} {params : List TypeExpr}
    (hopen : token.value = "(") (hparams : Items ")" TypeTerm tokens params rest) :
    Domain (token :: tokens) params rest
  | single {tokens rest : List Token} {type : TypeExpr} (hopen : Ahead (·.value ≠ "(") tokens)
    (htype : TypeTerm tokens type rest) : Domain tokens [type] rest
  | none {tokens : List Token} (h : Ahead (¬ TypeExpr.starts · = true) tokens) :
    Domain tokens [] tokens

/-- The result of a function type, after an arrow. -/
inductive Codomain : Phrase (Option TypeExpr)
  | some {arrow : Token} {tokens rest : List Token} {type : TypeExpr} (harrow : arrow.value = "->")
    (htype : TypeTerm tokens type rest) : Codomain (arrow :: tokens) (some type) rest
  | none {tokens : List Token} (h : Ahead (·.value ≠ "->") tokens) : Codomain tokens none tokens

end

/-! ## Phrases take tokens -/

/-- The rest comes after a token of the list at least. -/
def Takes (tokens rest : List Token) : Prop :=
  tokens ≠ [] ∧ rest <:+ tokens.tail

theorem Takes.length_lt {tokens rest : List Token} (h : Takes tokens rest) :
    rest.length < tokens.length := by
  have := List.length_pos_iff.2 h.1
  have := h.2.length_le
  rw [List.length_tail] at this
  omega

theorem Takes.suffix {tokens rest : List Token} (h : Takes tokens rest) : rest <:+ tokens :=
  h.2.trans (List.tail_suffix _)

theorem Takes.of_suffix {token : Token} {tokens rest : List Token} (h : rest <:+ tokens) :
    Takes (token :: tokens) rest :=
  ⟨List.cons_ne_nil _ _, h⟩

theorem Takes.trans {tokens middle rest : List Token} (h : Takes tokens middle)
    (h' : rest <:+ middle) : Takes tokens rest :=
  ⟨h.1, h'.trans h.2⟩

/-- Each token has the class that its text has. -/
def Proper (tokens : List Token) : Prop :=
  ∀ token ∈ tokens, token.Proper

theorem Proper.mono {tokens rest : List Token} (h : Proper tokens) (hsuffix : rest <:+ tokens) :
    Proper rest :=
  fun token hmem => h token (hsuffix.subset hmem)

theorem Proper.head {token : Token} {tokens : List Token} (h : Proper (token :: tokens)) :
    token.Proper :=
  h token List.mem_cons_self

theorem Proper.tail {token : Token} {tokens : List Token} (h : Proper (token :: tokens)) :
    Proper tokens :=
  h.mono (List.suffix_cons _ _)

theorem Path.suffix {tokens rest : List Token} {path : List String} (h : Path tokens path rest) :
    rest <:+ tokens := by
  induction h with
  | stop h => exact h.2 ▸ List.suffix_rfl
  | more h _ ih =>
    obtain ⟨-, -⟩ := h
    exact ih.trans ((List.suffix_cons _ _).trans (List.suffix_cons _ _))

theorem TypeTerm.starts {tokens rest : List Token} {type : TypeExpr}
    (h : TypeTerm tokens type rest) : Starts (TypeExpr.starts · = true) tokens := by
  cases h with
  | tuple hopen => simp [TypeExpr.starts, hopen]
  | array hopen => simp [TypeExpr.starts, hopen]
  | function hfn => simp [TypeExpr.starts, hfn]
  | named hname => simp [TypeExpr.starts, Token.isConstant, hname]

mutual

theorem TypeTerm.takes : ∀ {tokens rest : List Token} {type : TypeExpr},
    TypeTerm tokens type rest → Takes tokens rest
  | _, _, _, .tuple _ hentries => .of_suffix (takes_entries hentries).suffix
  | _, _, _, .array _ _ helement => .of_suffix (helement.takes.suffix.trans (List.suffix_cons _ _))
  | _, _, _, .function _ hparams hresult => .of_suffix (hresult.suffix.trans hparams.suffix)
  | _, _, _, .named _ hpath => .of_suffix (Path.suffix hpath)

theorem takes_entries : ∀ {tokens rest : List Token} {entries : List (Option String × TypeExpr)},
    Items ")" Entry tokens entries rest → Takes tokens rest
  | _, _, _, .nil _ => .of_suffix List.suffix_rfl
  | _, _, _, .last _ hitem _ => hitem.takes.trans (List.suffix_cons _ _)
  | _, _, _, .more _ hitem _ hrest =>
    hitem.takes.trans ((takes_entries hrest).suffix.trans (List.suffix_cons _ _))

theorem Entry.takes : ∀ {tokens rest : List Token} {entry : Option String × TypeExpr},
    Entry tokens entry rest → Takes tokens rest
  | _, _, _, .named _ _ htype => .of_suffix (htype.takes.suffix.trans (List.suffix_cons _ _))
  | _, _, _, .unnamed _ htype => htype.takes

theorem takes_types : ∀ {tokens rest : List Token} {types : List TypeExpr},
    Items ")" TypeTerm tokens types rest → Takes tokens rest
  | _, _, _, .nil _ => .of_suffix List.suffix_rfl
  | _, _, _, .last _ hitem _ => hitem.takes.trans (List.suffix_cons _ _)
  | _, _, _, .more _ hitem _ hrest =>
    hitem.takes.trans ((takes_types hrest).suffix.trans (List.suffix_cons _ _))

theorem Domain.suffix : ∀ {tokens rest : List Token} {params : List TypeExpr},
    Domain tokens params rest → rest <:+ tokens
  | _, _, _, .list _ hparams => (takes_types hparams).suffix.trans (List.suffix_cons _ _)
  | _, _, _, .single _ htype => htype.takes.suffix
  | _, _, _, .none _ => List.suffix_rfl

theorem Codomain.suffix : ∀ {tokens rest : List Token} {result : Option TypeExpr},
    Codomain tokens result rest → rest <:+ tokens
  | _, _, _, .some _ htype => htype.takes.suffix.trans (List.suffix_cons _ _)
  | _, _, _, .none _ => List.suffix_rfl

end

end Phrase

/-! ## The parser of types -/

namespace TypeExpr

open ParseM (Parses closes_value)
open Phrase

variable {file : String} {last : Token} {n : Nat}

theorem parses_pathRound (found : Array String) :
    Parses file last n (pathRound found)
      (ParseM.Collects PathStep (Before (·.value ≠ "::")) found) := by
  refine (Parses.ite (p := (·.value = "::")) (fun _ => beq_iff_eq)
    (fun hlast => by simp [hlast.value_eq])
    (.bind (.takeNextKind .constant (by decide)) fun _ => .pure _) (.pure _)).congr fun _ tokens _ round rest => ?_
  constructor
  · rintro (⟨⟨colons, others, rfl, hcolons⟩, name, _, ⟨rfl, hname⟩, rfl, rfl⟩ | ⟨h, rfl, rfl⟩)
    · exact ⟨name.value, .intro hcolons hname, rfl⟩
    · exact ⟨⟨h, rfl⟩, rfl⟩
  · cases round with
    | again next =>
      rintro ⟨_, ⟨hcolons, hname⟩, rfl⟩
      exact .inl ⟨starts_cons.2 hcolons, _, _, ⟨rfl, hname⟩, rfl, rfl⟩
    | done out =>
      rintro ⟨⟨h, rfl⟩, rfl⟩
      exact .inr ⟨h, rfl, rfl⟩

theorem length_lt_of_pathStep {tokens rest : List Token} {name : String}
    (h : PathStep tokens name rest) : rest.length < tokens.length := by
  obtain ⟨-, -⟩ := h
  simp only [List.length_cons]
  omega

theorem parses_parseNamed :
    Parses file last n parseNamed fun tokens type rest => ∃ name others path,
      tokens = name :: others ∧ name.kind = .constant ∧ Path others path rest ∧
        type = .named (name.value :: path) := by
  refine (Parses.bind (.takeKind .constant (by decide)) fun name =>
    .bind (.collect parses_pathRound (fun _ _ _ => length_lt_of_pathStep) #[name.value]) fun path =>
      .pure (TypeExpr.named path.toList)).congr fun _ tokens _ type rest => ?_
  constructor
  · rintro ⟨name, _, ⟨rfl, hname⟩, _, _, ⟨path, hpath, rfl⟩, rfl, rfl⟩
    exact ⟨name, _, path, rfl, hname, hpath, by simp⟩
  · rintro ⟨name, others, path, rfl, hname, hpath, rfl⟩
    exact ⟨name, others, ⟨rfl, hname⟩, _, rest, ⟨path, hpath, rfl⟩, by simp⟩

section

variable {inner : ParseM TypeExpr} (h : Parses file last (n + 1) inner TypeTerm)

include h

theorem parses_parseEntry : Parses file last (n + 1) (parseEntry inner) Entry := by
  refine (Parses.ite (p := (·.kind = .identifier)) (fun token => by simp [Token.isIdentifier])
    (fun hlast => by simp [hlast.kind_eq])
    (.bind .consume fun name => .bind (.takeText ":" (by decide)) fun _ => .bind h fun type => .pure (some name.value, type))
    (.bind h fun type => .pure (none, type))).congr fun _ tokens _ entry rest => ?_
  constructor
  · rintro (⟨⟨name, _, rfl, hname⟩, _, _, ⟨rfl, rfl⟩, colon, tokens, ⟨rfl, hcolon⟩, type, _, htype,
      rfl, rfl⟩ | ⟨hname, type, _, htype, rfl, rfl⟩)
    · exact .named hname hcolon htype
    · exact .unnamed hname htype
  · rintro (⟨hname, hcolon, htype⟩ | ⟨hname, htype⟩)
    · exact .inl ⟨starts_cons.2 hname, _, _, ⟨rfl, rfl⟩, _, _, ⟨rfl, hcolon⟩, _, _, htype, rfl, rfl⟩
    · exact .inr ⟨hname, _, _, htype, rfl, rfl⟩

theorem parses_parseTuple :
    Parses file last (n + 2) (parseTuple inner) fun tokens type rest =>
      ∃ entries, Items ")" Entry tokens.tail entries rest ∧ type = .tuple entries := by
  refine (Parses.next (.bind (.items (closes_value ")") (parses_parseEntry h)
    fun _ _ _ hentry => hentry.takes.length_lt) fun entries => .pure (tuple entries))).congr
    fun _ tokens _ type rest => ?_
  constructor
  · rintro ⟨entries, _, hentries, rfl, rfl⟩
    exact ⟨entries, hentries, rfl⟩
  · rintro ⟨entries, hentries, rfl⟩
    exact ⟨entries, rest, hentries, rfl, rfl⟩

theorem parses_parseParams : Parses file last (n + 1) (parseParams inner) Domain := by
  refine (Parses.ifAhead (p := (·.value = "(")) (fun _ => beq_iff_eq)
    (fun hlast => by simp [hlast.value_eq])
    (.unread (.bind .advance fun _ =>
      .items (closes_value ")") h fun _ _ _ htype => htype.takes.length_lt))
    (.ite (fun _ => Iff.rfl) (fun hlast => by simp [starts, Token.isConstant, Token.isKeyword,
      hlast.kind_eq, hlast.value_eq]) (.bind h fun type => .pure [type]) (.pure []))).congr
    fun _ tokens _ params rest => ?_
  constructor
  · rintro (⟨⟨token, others, rfl, hopen⟩, -, _, rfl, hparams⟩
      | ⟨hopen, ⟨-, type, _, htype, rfl, rfl⟩ | ⟨hnone, rfl, rfl⟩⟩)
    · exact .list hopen hparams
    · exact .single hopen htype
    · exact .none hnone
  · rintro (⟨hopen, hparams⟩ | ⟨hopen, htype⟩ | hnone)
    · exact .inl ⟨starts_cons.2 hopen, (), _, rfl, hparams⟩
    · exact .inr ⟨hopen, .inl ⟨htype.starts, _, _, htype, rfl, rfl⟩⟩
    · refine .inr ⟨fun token htoken hopen => hnone token htoken ?_, .inr ⟨hnone, rfl, rfl⟩⟩
      simp [starts, hopen]

theorem parses_parseFunction :
    Parses file last (n + 2) (parseFunction inner) fun tokens type rest =>
      ∃ params result middle, Domain tokens.tail params middle ∧ Codomain middle result rest ∧
        type = .function params result := by
  refine (Parses.next (.bind (parses_parseParams h) fun params =>
    .ite (p := (·.value = "->")) (fun _ => beq_iff_eq) (fun hlast => by simp [hlast.value_eq])
      (.bind .advance fun _ => .bind h fun result => .pure (function params (some result)))
      (.pure (function params none)))).congr fun _ tokens _ type rest => ?_
  constructor
  · rintro ⟨params, middle, hparams, ⟨⟨arrow, others, rfl, harrow⟩, -, _, rfl, result, _, hresult,
      rfl, rfl⟩ | ⟨harrow, rfl, rfl⟩⟩
    · exact ⟨params, some result, _, hparams, .some harrow hresult, rfl⟩
    · exact ⟨params, none, rest, hparams, .none harrow, rfl⟩
  · rintro ⟨params, result, middle, hparams, (⟨harrow, hresult⟩ | harrow), rfl⟩
    · exact ⟨params, _, hparams, .inl ⟨starts_cons.2 harrow, (), _, rfl, _, _, hresult, rfl, rfl⟩⟩
    · exact ⟨params, _, hparams, .inr ⟨harrow, rfl, rfl⟩⟩

theorem parses_parseStep : Parses file last (n + 2) (parseStep inner) TypeTerm := by
  have harray : Parses file last (n + 2) (do
      let _ ← ParseM.takeNext (.text "]")
      return TypeExpr.array (← inner)) fun tokens type rest => ∃ close others element,
        tokens.tail = close :: others ∧ close.value = "]" ∧ TypeTerm others element rest ∧
          type = .array element := by
    refine (Parses.bindWithin (.takeNextText "]" (by decide)) (fun _ => .bind h fun element =>
      .pure (array element)) ?_).congr fun _ tokens _ type rest => ?_
    · rintro tokens _ middle hlen - ⟨htail, -⟩
      have := congrArg List.length htail
      rw [List.length_tail, List.length_cons] at this
      omega
    · constructor
      · rintro ⟨close, others, ⟨htail, hclose⟩, element, _, helement, rfl, rfl⟩
        exact ⟨close, others, element, htail, hclose, helement, rfl⟩
      · rintro ⟨close, others, element, htail, hclose, helement, rfl⟩
        exact ⟨close, others, ⟨htail, hclose⟩, element, rest, helement, rfl, rfl⟩
  refine (Parses.ifAhead (p := (·.value = "(")) (fun _ => beq_iff_eq)
    (fun hlast => by simp [hlast.value_eq]) (.unread (parses_parseTuple h))
    (.ifAhead (p := (·.value = "[")) (fun _ => beq_iff_eq) (fun hlast => by simp [hlast.value_eq])
      (.unread harray) (.ite (p := (·.isKeyword "fn" = true)) (fun _ => Iff.rfl)
        (fun hlast => by simp [Token.isKeyword, hlast.value_eq]) (parses_parseFunction h)
        parses_parseNamed))).congr fun _ tokens hview type rest => ?_
  constructor
  · rintro (⟨⟨token, others, rfl, hopen⟩, entries, hentries, rfl⟩
      | ⟨-, ⟨⟨token, others, rfl, hopen⟩, close, others', element, heq, hclose, helement, rfl⟩
        | ⟨-, ⟨⟨token, others, rfl, hfn⟩, params, result, middle, hparams, hresult, rfl⟩
          | ⟨-, name, others, path, rfl, hname, hpath, rfl⟩⟩⟩)
    · exact .tuple hopen hentries
    · rw [List.tail_cons] at heq
      subst heq
      exact .array hopen hclose helement
    · exact .function hfn hparams hresult
    · exact .named hname hpath
  · rintro (⟨hopen, hentries⟩ | ⟨hopen, hclose, helement⟩ | @⟨token, _, _, _, _, _, hfn, hparams, hresult⟩
      | ⟨hname, hpath⟩)
    · exact .inl ⟨starts_cons.2 hopen, _, hentries, rfl⟩
    · exact .inr ⟨by simp [hopen], .inl ⟨starts_cons.2 hopen, _, _, _, rfl, hclose, helement, rfl⟩⟩
    · have hvalue : token.value = "fn" := by simpa using (Bool.and_eq_true_iff.1 hfn).2
      exact .inr ⟨by simp [hvalue], .inr ⟨by simp [hvalue],
        .inl ⟨starts_cons.2 hfn, _, _, _, hparams, hresult, rfl⟩⟩⟩
    · have hproper := (hview _ List.mem_cons_self).proper
      refine .inr ⟨ahead_cons.2 (hproper.value_ne ("(", .leftParen) (by simp [hname])), .inr
        ⟨ahead_cons.2 (hproper.value_ne ("[", .special) (by simp [hname])), .inr
          ⟨by simp [Token.isKeyword, hname], _, _, _, rfl, hname, hpath, rfl⟩⟩⟩

end

theorem parses_parseWithin (depth : Nat) :
    Parses file last (depth + 1) (parseWithin depth) TypeTerm := by
  induction depth with
  | zero =>
    constructor
    · intro _ _ _ _ hrun
      cases hrun
    · intro _ _ _ _ _ hlen htype
      exact absurd htype.takes.length_lt (by omega)
  | succ depth ih => exact parses_parseStep ih

theorem parses_parse : Parses file last n parse TypeTerm :=
  .getBudget fun bound => (parses_parseWithin bound).mono (Nat.le_succ bound)

end TypeExpr

end Offside
