import Offside.Proofs.TypeExpr.Reading

/-!
# The grammar of types

`TypeExpr.Derives` relates the tokens of a type to the type by the rules of a grammar, whatever
comes before or after them:

    T ::= "(" [E {"," E} [","]] ")"  |  "[" "]" T  |  "fn" P ["->" T]  |  CONSTANT {"::" CONSTANT}
    E ::= [IDENTIFIER ":"] T
    P ::= nothing  |  "(" [T {"," T} [","]] ")"  |  a T that does not begin with "("

The rules alone leave open to which `fn` an arrow belongs. It is the innermost one that can take it:
a function whose only parameter is written without parentheses has no arrow of its own as long as
that parameter ends in a function without a result (`TypeExpr.isOpen`).

`TypeExpr.parse_grammar` ties the parser to the grammar. A phrase of types takes tokens that the
grammar derives (`Phrase.TypeTerm.derives`), and tokens that the grammar derives are a phrase where
nothing after them goes on with the type (`TypeExpr.Derives.phrase`).
-/

namespace Offside

open Phrase (Ahead)

/-! ## Derivations -/

/-- Items with commas between them, and perhaps one after the last. -/
inductive Token.CommaList {α : Type} (item : List Token → α → Prop) : List Token → List α → Prop
  | nil : CommaList item [] []
  | last {tokens : List Token} {a : α} (hitem : item tokens a) : CommaList item tokens [a]
  | more {tokens others : List Token} {a : α} {rest : List α} {comma : Token}
    (hitem : item tokens a) (hcomma : comma.value = ",") (hrest : CommaList item others rest) :
    CommaList item (tokens ++ comma :: others) (a :: rest)

namespace TypeExpr

/-- Whether a function at the end of the type has no result, so that an arrow after the type would
belong to it. -/
def isOpen : TypeExpr → Bool
  | named _ | tuple _ => false
  | array element => element.isOpen
  | function _ none => true
  | function _ (some result) => result.isOpen
termination_by structural type => type

/-- The names of a path after the first one. -/
inductive DerivesPath : List Token → List String → Prop
  | nil : DerivesPath [] []
  | cons {colons name : Token} {tokens : List Token} {path : List String}
    (hcolons : colons.value = "::") (hname : name.kind = .constant)
    (hpath : DerivesPath tokens path) : DerivesPath (colons :: name :: tokens) (name.value :: path)

mutual

/-- All of the tokens together spell the type. -/
inductive Derives : List Token → TypeExpr → Prop
  | tuple {opening closing : Token} {tokens : List Token}
    {entries : List (Option String × TypeExpr)} (hopen : opening.value = "(")
    (hentries : Token.CommaList DerivesEntry tokens entries) (hclose : closing.value = ")") :
    Derives (opening :: (tokens ++ [closing])) (.tuple entries)
  | array {opening closing : Token} {tokens : List Token} {element : TypeExpr}
    (hopen : opening.value = "[") (hclose : closing.value = "]")
    (helement : Derives tokens element) : Derives (opening :: closing :: tokens) (.array element)
  | function {fn : Token} {tokens : List Token} {params : List TypeExpr} {isOpen : Bool}
    (hfn : fn.isKeyword "fn" = true) (hparams : DerivesParams tokens params isOpen) :
    Derives (fn :: tokens) (.function params none)
  | arrow {fn arrow : Token} {tokens others : List Token} {params : List TypeExpr}
    {result : TypeExpr} (hfn : fn.isKeyword "fn" = true)
    (hparams : DerivesParams tokens params false) (harrow : arrow.value = "->")
    (hresult : Derives others result) :
    Derives (fn :: (tokens ++ arrow :: others)) (.function params (some result))
  | named {name : Token} {tokens : List Token} {path : List String} (hname : name.kind = .constant)
    (hpath : DerivesPath tokens path) : Derives (name :: tokens) (.named (name.value :: path))

/-- An entry of a tuple. -/
inductive DerivesEntry : List Token → Option String × TypeExpr → Prop
  | named {name colon : Token} {tokens : List Token} {type : TypeExpr}
    (hname : name.kind = .identifier) (hcolon : colon.value = ":") (htype : Derives tokens type) :
    DerivesEntry (name :: colon :: tokens) (some name.value, type)
  | unnamed {tokens : List Token} {type : TypeExpr} (htype : Derives tokens type) :
    DerivesEntry tokens (none, type)

/-- The parameters of a function, and whether an arrow after them would belong to one of them. -/
inductive DerivesParams : List Token → List TypeExpr → Bool → Prop
  | none : DerivesParams [] [] false
  | list {opening closing : Token} {tokens : List Token} {params : List TypeExpr}
    (hopen : opening.value = "(") (hparams : Token.CommaList Derives tokens params)
    (hclose : closing.value = ")") :
    DerivesParams (opening :: (tokens ++ [closing])) params false
  | single {tokens : List Token} {type : TypeExpr} (hopen : Ahead (·.value ≠ "(") tokens)
    (htype : Derives tokens type) : DerivesParams tokens [type] type.isOpen

end

end TypeExpr

/-! ## Phrases are derivations -/

namespace Phrase

open TypeExpr
open Token (CommaList)

theorem Ahead.of_append {p : Token → Prop} {tokens rest : List Token}
    (h : Ahead p (tokens ++ rest)) : Ahead p tokens := by
  cases tokens with
  | nil => exact ahead_nil
  | cons token tokens => exact h

theorem Path.derives {tokens rest : List Token} {path : List String} (h : Path tokens path rest) :
    ∃ taken, tokens = taken ++ rest ∧ DerivesPath taken path := by
  induction h with
  | stop h => exact ⟨[], h.2.symm, .nil⟩
  | more hstep _ ih =>
    obtain ⟨hcolons, hname⟩ := hstep
    obtain ⟨taken, rfl, hpath⟩ := ih
    exact ⟨_ :: _ :: taken, rfl, .cons hcolons hname hpath⟩

mutual

/-- The tokens that a type takes derive it, and the parser leaves no arrow to its functions. -/
theorem TypeTerm.derives : ∀ {tokens rest : List Token} {type : TypeExpr},
    TypeTerm tokens type rest → ∃ taken, tokens = taken ++ rest ∧ Derives taken type ∧
      (type.isOpen = true → Ahead (·.value ≠ "->") rest)
  | _, _, _, .tuple hopen hentries => by
    obtain ⟨taken, closing, rfl, hclose, hlist⟩ := derives_entries hentries
    exact ⟨_ :: (taken ++ [closing]), by simp, .tuple hopen hlist hclose, nofun⟩
  | _, _, _, .array hopen hclose helement => by
    obtain ⟨taken, rfl, hderives, hopen'⟩ := helement.derives
    exact ⟨_ :: _ :: taken, rfl, .array hopen hclose hderives, hopen'⟩
  | _, _, .function _ none, .function hfn hparams hresult => by
    obtain ⟨taken, isOpen, rfl, hderives, -⟩ := hparams.derives
    obtain ⟨rfl, harrow⟩ := hresult.derives_none
    exact ⟨_ :: taken, rfl, .function hfn hderives, fun _ => harrow⟩
  | _, _, .function _ (some result), .function hfn hparams hresult => by
    obtain ⟨taken, isOpen, rfl, hderives, hnone⟩ := hparams.derives
    obtain ⟨arrow, others, rfl, harrow, hderives', hopen⟩ := hresult.derives_some
    cases isOpen with
    | true =>
      -- The last parameter would have taken the arrow.
      exact absurd harrow (ahead_cons.1 (hnone rfl))
    | false =>
      exact ⟨_ :: (taken ++ arrow :: others), by simp, .arrow hfn hderives harrow hderives', hopen⟩
  | _, _, _, .named hname hpath => by
    obtain ⟨taken, rfl, hderives⟩ := Path.derives hpath
    exact ⟨_ :: taken, rfl, .named hname hderives, nofun⟩

theorem derives_entries : ∀ {tokens rest : List Token} {entries : List (Option String × TypeExpr)},
    Items ")" Entry tokens entries rest → ∃ taken closing, tokens = taken ++ closing :: rest ∧
      closing.value = ")" ∧ CommaList DerivesEntry taken entries
  | _, _, _, .nil hclose => ⟨[], _, rfl, hclose, .nil⟩
  | _, _, _, .last _ hitem hclose => by
    obtain ⟨taken, rfl, hderives⟩ := hitem.derives
    exact ⟨taken, _, rfl, hclose, .last hderives⟩
  | _, _, _, .more _ hitem hcomma hrest => by
    obtain ⟨taken, rfl, hderives⟩ := hitem.derives
    obtain ⟨others, closing, rfl, hclose, hlist⟩ := derives_entries hrest
    exact ⟨taken ++ _ :: others, closing, by simp, hclose, .more hderives hcomma hlist⟩

theorem Entry.derives : ∀ {tokens rest : List Token} {entry : Option String × TypeExpr},
    Entry tokens entry rest → ∃ taken, tokens = taken ++ rest ∧ DerivesEntry taken entry
  | _, _, _, .named hname hcolon htype => by
    obtain ⟨taken, rfl, hderives, -⟩ := htype.derives
    exact ⟨_ :: _ :: taken, rfl, .named hname hcolon hderives⟩
  | _, _, _, .unnamed _ htype => by
    obtain ⟨taken, rfl, hderives, -⟩ := htype.derives
    exact ⟨taken, rfl, .unnamed hderives⟩

theorem derives_types : ∀ {tokens rest : List Token} {types : List TypeExpr},
    Items ")" TypeTerm tokens types rest → ∃ taken closing, tokens = taken ++ closing :: rest ∧
      closing.value = ")" ∧ CommaList Derives taken types
  | _, _, _, .nil hclose => ⟨[], _, rfl, hclose, .nil⟩
  | _, _, _, .last _ hitem hclose => by
    obtain ⟨taken, rfl, hderives, -⟩ := hitem.derives
    exact ⟨taken, _, rfl, hclose, .last hderives⟩
  | _, _, _, .more _ hitem hcomma hrest => by
    obtain ⟨taken, rfl, hderives, -⟩ := hitem.derives
    obtain ⟨others, closing, rfl, hclose, hlist⟩ := derives_types hrest
    exact ⟨taken ++ _ :: others, closing, by simp, hclose, .more hderives hcomma hlist⟩

theorem Domain.derives : ∀ {tokens rest : List Token} {params : List TypeExpr},
    Domain tokens params rest → ∃ taken isOpen, tokens = taken ++ rest ∧
      DerivesParams taken params isOpen ∧ (isOpen = true → Ahead (·.value ≠ "->") rest)
  | _, _, _, .list hopen hparams => by
    obtain ⟨taken, closing, rfl, hclose, hlist⟩ := derives_types hparams
    exact ⟨_ :: (taken ++ [closing]), false, by simp, .list hopen hlist hclose, nofun⟩
  | _, _, _, .single hopen htype => by
    obtain ⟨taken, rfl, hderives, hnone⟩ := htype.derives
    exact ⟨taken, _, rfl, .single (hopen.of_append) hderives, hnone⟩
  | _, _, _, .none _ => ⟨[], false, rfl, .none, nofun⟩

theorem Codomain.derives_none : ∀ {tokens rest : List Token},
    Codomain tokens none rest → rest = tokens ∧ Ahead (·.value ≠ "->") rest
  | _, _, .none harrow => ⟨rfl, harrow⟩

theorem Codomain.derives_some : ∀ {tokens rest : List Token} {result : TypeExpr},
    Codomain tokens (some result) rest → ∃ arrow taken, tokens = arrow :: (taken ++ rest) ∧
      arrow.value = "->" ∧ Derives taken result ∧
        (result.isOpen = true → Ahead (·.value ≠ "->") rest)
  | _, _, _, .some harrow htype => by
    obtain ⟨taken, rfl, hderives, hnone⟩ := htype.derives
    exact ⟨_, taken, rfl, harrow, hderives, hnone⟩

end

end Phrase

/-! ## Derivations are phrases -/

namespace TypeExpr

open Phrase
open Token (CommaList)

/-- Nothing ahead goes on with a type, an arrow apart. -/
def Stops (rest : List Token) : Prop :=
  Ahead (fun token => starts token = false ∧ token.value ≠ "::") rest

variable {token : Token} {tokens rest : List Token}

/-- The marks that stand after a type inside another type. -/
theorem stops_of_mark (h : token.Proper)
    (hvalue : token.value = "," ∨ token.value = ")" ∨ token.value = "->") :
    Stops (token :: rest) := by
  have hkind : token.kind = .special ∨ token.kind = .rightParen := by
    rcases hvalue with hvalue | hvalue | hvalue
    · exact .inl (h (",", .special) (by decide) hvalue)
    · exact .inr (h (")", .rightParen) (by decide) hvalue)
    · exact .inl (h ("->", .special) (by decide) hvalue)
  refine ahead_cons.2 ?_
  rcases hvalue with hvalue | hvalue | hvalue <;> rcases hkind with hkind | hkind <;>
    simp [starts, Token.isConstant, Token.isKeyword, hkind, hvalue]

/-- A type begins neither with a name of an entry nor as a list ends. -/
theorem ne_of_starts (h : token.Proper) (hstarts : starts token = true) :
    token.kind ≠ .identifier ∧ token.value ≠ ")" := by
  constructor
  · intro hkind
    have hround := h.value_ne ("(", .leftParen) (by simp [hkind]) (by decide)
    have hsquare := h.value_ne ("[", .special) (by simp [hkind]) (by decide)
    simp [starts, Token.isConstant, Token.isKeyword, hkind, hround, hsquare] at hstarts
  · intro hclose
    have hstops : Stops [token] := stops_of_mark h (.inr (.inl hclose))
    rw [(ahead_cons.1 hstops).1] at hstarts
    cases hstarts

/-- What a list of types begins with, if it has an item. -/
theorem ahead_of_typeTerm {type : TypeExpr} (h : TypeTerm tokens type rest)
    (hproper : Proper tokens) :
    Ahead (fun token => token.kind ≠ .identifier ∧ token.value ≠ ")") tokens := by
  obtain ⟨first, others, rfl, hstarts⟩ := h.starts
  exact ahead_cons.2 (ne_of_starts hproper.head hstarts)

theorem ahead_of_entry {entry : Option String × TypeExpr} (h : Entry tokens entry rest)
    (hproper : Proper tokens) : Ahead (·.value ≠ ")") tokens := by
  cases h with
  | named hname =>
    exact ahead_cons.2 (hproper.head.value_ne (")", .rightParen) (by simp [hname]) (by decide))
  | unnamed _ htype => exact fun first hfirst => (ahead_of_typeTerm htype hproper first hfirst).2

theorem Derives.ne_nil {type : TypeExpr} (h : Derives tokens type) : tokens ≠ [] := by
  cases h <;> exact List.cons_ne_nil _ _

theorem DerivesPath.phrase {path : List String} (h : DerivesPath tokens path)
    (hstop : Ahead (·.value ≠ "::") rest) : Path (tokens ++ rest) path rest := by
  induction h with
  | nil => exact .stop ⟨hstop, rfl⟩
  | cons hcolons hname _ ih => exact .more (.intro hcolons hname) ih

mutual

/-- Tokens that derive a type are read as it where nothing after them goes on with it. -/
theorem Derives.phrase : ∀ {tokens : List Token} {type : TypeExpr}, Derives tokens type →
    ∀ rest, Proper (tokens ++ rest) → Stops rest →
      (type.isOpen = true → Ahead (·.value ≠ "->") rest) → TypeTerm (tokens ++ rest) type rest
  | _, _, .tuple hopen hentries hclose, rest, hproper, _, _ => by
    rw [List.cons_append, List.append_assoc] at hproper ⊢
    exact .tuple hopen (phrase_entries hentries hclose rest hproper.tail)
  | _, _, .array hopen hclose helement, rest, hproper, hstops, harrow =>
    .array hopen hclose (helement.phrase rest hproper.tail.tail hstops harrow)
  | _, _, .function hfn hparams, rest, hproper, hstops, harrow =>
    .function hfn (hparams.phrase rest hproper.tail hstops fun _ => harrow rfl) (.none (harrow rfl))
  | _, _, @Derives.arrow _ arrow _ others _ _ hfn hparams harrow hresult, rest, hproper, hstops,
    hopen => by
    rw [List.cons_append, List.append_assoc] at hproper ⊢
    have hproper' : Proper (arrow :: (others ++ rest)) := hproper.tail.mono (List.suffix_append _ _)
    have hmark : Stops (arrow :: (others ++ rest)) :=
      stops_of_mark hproper'.head (.inr (.inr harrow))
    -- The parameters are not open, so they are read up to the arrow.
    exact .function hfn (hparams.phrase _ hproper.tail hmark nofun)
      (.some harrow (hresult.phrase rest hproper'.tail hstops hopen))
  | _, _, .named hname hpath, rest, _, hstops, _ =>
    .named hname (hpath.phrase fun token htoken => (hstops token htoken).2)

theorem phrase_entries : ∀ {tokens : List Token} {entries : List (Option String × TypeExpr)}
    {closing : Token}, CommaList DerivesEntry tokens entries → closing.value = ")" → ∀ rest,
      Proper (tokens ++ closing :: rest) → Items ")" Entry (tokens ++ closing :: rest) entries rest
  | _, _, _, .nil, hclose, _, _ => .nil hclose
  | _, _, closing, .last hitem, hclose, rest, hproper => by
    have hstops : Stops (closing :: rest) :=
      stops_of_mark (hproper.mono (List.suffix_append _ _)).head (.inr (.inl hclose))
    have hentry := hitem.phrase _ hproper hstops (ahead_cons.2 (by simp [hclose]))
    exact .last (ahead_of_entry hentry hproper) hentry hclose
  | _, _, closing, @CommaList.more _ _ _ others _ _ comma hitem hcomma hothers, hclose, rest,
    hproper => by
    rw [List.append_assoc, List.cons_append] at hproper ⊢
    have hproper' : Proper (comma :: (others ++ closing :: rest)) :=
      hproper.mono (List.suffix_append _ _)
    have hentry := hitem.phrase _ hproper (stops_of_mark hproper'.head (.inl hcomma))
      (ahead_cons.2 (by simp [hcomma]))
    exact .more (ahead_of_entry hentry hproper) hentry hcomma
      (phrase_entries hothers hclose rest hproper'.tail)

theorem DerivesEntry.phrase : ∀ {tokens : List Token} {entry : Option String × TypeExpr},
    DerivesEntry tokens entry → ∀ rest, Proper (tokens ++ rest) → Stops rest →
      Ahead (·.value ≠ "->") rest → Entry (tokens ++ rest) entry rest
  | _, _, .named hname hcolon htype, rest, hproper, hstops, harrow =>
    .named hname hcolon (htype.phrase rest hproper.tail.tail hstops fun _ => harrow)
  | _, _, .unnamed htype, rest, hproper, hstops, harrow => by
    have hterm := htype.phrase rest hproper hstops fun _ => harrow
    exact .unnamed (fun first hfirst => (ahead_of_typeTerm hterm hproper first hfirst).1) hterm

theorem phrase_types : ∀ {tokens : List Token} {types : List TypeExpr} {closing : Token},
    CommaList Derives tokens types → closing.value = ")" → ∀ rest,
      Proper (tokens ++ closing :: rest) → Items ")" TypeTerm (tokens ++ closing :: rest) types rest
  | _, _, _, .nil, hclose, _, _ => .nil hclose
  | _, _, closing, .last hitem, hclose, rest, hproper => by
    have hstops : Stops (closing :: rest) :=
      stops_of_mark (hproper.mono (List.suffix_append _ _)).head (.inr (.inl hclose))
    have hterm := hitem.phrase _ hproper hstops fun _ => ahead_cons.2 (by simp [hclose])
    exact .last (fun first hfirst => (ahead_of_typeTerm hterm hproper first hfirst).2) hterm hclose
  | _, _, closing, @CommaList.more _ _ _ others _ _ comma hitem hcomma hothers, hclose, rest,
    hproper => by
    rw [List.append_assoc, List.cons_append] at hproper ⊢
    have hproper' : Proper (comma :: (others ++ closing :: rest)) :=
      hproper.mono (List.suffix_append _ _)
    have hterm := hitem.phrase _ hproper (stops_of_mark hproper'.head (.inl hcomma))
      fun _ => ahead_cons.2 (by simp [hcomma])
    exact .more (fun first hfirst => (ahead_of_typeTerm hterm hproper first hfirst).2) hterm hcomma
      (phrase_types hothers hclose rest hproper'.tail)

theorem DerivesParams.phrase : ∀ {tokens : List Token} {params : List TypeExpr} {isOpen : Bool},
    DerivesParams tokens params isOpen → ∀ rest, Proper (tokens ++ rest) → Stops rest →
      (isOpen = true → Ahead (·.value ≠ "->") rest) → Domain (tokens ++ rest) params rest
  | _, _, _, .none, _, _, hstops, _ => .none fun first hfirst => by simp [(hstops first hfirst).1]
  | _, _, _, .list hopen hparams hclose, rest, hproper, _, _ => by
    rw [List.cons_append, List.append_assoc] at hproper ⊢
    exact .list hopen (phrase_types hparams hclose rest hproper.tail)
  | _, _, _, .single hopen htype, rest, hproper, hstops, harrow => by
    refine .single ?_ (htype.phrase rest hproper hstops harrow)
    obtain ⟨first, others, rfl⟩ := List.exists_cons_of_ne_nil htype.ne_nil
    exact hopen

end

/-! ## The parser and the grammar -/

/-- `TypeExpr.parse` accepts exactly what the grammar derives, wherever a cursor stands in a text:
the tokens that it takes derive the type that it answers, and where all tokens up to the end of the
text derive a type, it takes them all and answers that type. -/
theorem parse_grammar {source : String} {file : Option String} {cursor : Cursor}
    (h : cursor.InText source file) :
    (∀ type after, parse.run cursor = .ok type after →
      ∃ taken, cursor.view = taken ++ after.view ∧ Derives taken type) ∧
    ∀ type, cursor.Clean → Derives cursor.view type →
      ∃ after, parse.run cursor = .ok type after ∧ after.view = [] ∧
        after.current.isEnd = true := by
  have hproper : Proper cursor.view := fun token htoken => (h.sound.view_inView token htoken).proper
  constructor
  · intro type after hrun
    obtain ⟨-, hterm⟩ := (parses_parse (n := 0)).sound h.sound hrun
    obtain ⟨taken, htaken, hderives, -⟩ := hterm.derives
    exact ⟨taken, htaken, hderives⟩
  · intro type hclean hderives
    have hterm := hderives.phrase [] (by rwa [List.append_nil]) ahead_nil fun _ => ahead_nil
    rw [List.append_nil] at hterm
    obtain ⟨after, hrun, hafter⟩ := parses_parse.complete h.sound hclean (Nat.lt_succ_self _) hterm
    exact ⟨after, hrun, hafter, Cursor.isEnd_of_view hafter⟩

/-- Two arrows, the first of which belongs to the inner function, and a comma before the end of a
list. -/
theorem parse_grammar_nested :
    let source := "fn fn [](a: A::B, []C,) -> () -> fn"
    let inner : TypeExpr := .function
      [.array (.tuple [(some "a", .named ["A", "B"]), (none, .array (.named ["C"]))])]
      (some (.tuple []))
    ∃ cursor after, cursor.InText source none ∧ cursor.Clean ∧
      Derives cursor.view (.function [inner] (some (.function [] none))) ∧
        parse.run cursor = .ok (.function [inner] (some (.function [] none))) after ∧
          after.current.isEnd = true := by
  intro source inner
  have hparse : ∃ cursor after, (Cursor.ofText source none #[]).result = .ok cursor ∧
      parse.run cursor = .ok (.function [inner] (some (.function [] none))) after ∧
        after.current.isEnd = true := by
    have heval : ((Cursor.ofText source none #[]).result.toOption.bind fun cursor =>
        match parse.run cursor with
        | .ok type after => some (type, after.current.isEnd)
        | .error .. => none) = some (.function [inner] (some (.function [] none)), true) := by
      decide +kernel
    revert heval
    cases (Cursor.ofText source none #[]).result with
    | error fault => nofun
    | ok cursor =>
      intro heval
      simp only [Except.toOption, Option.bind_some] at heval
      split at heval
      · rename_i type after hrun
        obtain ⟨rfl, hend⟩ := Prod.mk.inj (Option.some.inj heval)
        exact ⟨cursor, after, rfl, hrun, hend⟩
      · cases heval
  obtain ⟨cursor, after, hcursor, hrun, hend⟩ := hparse
  have htext : cursor.InText source none := .start hcursor
  have hview : after.view = [] := by rw [Cursor.view, if_pos hend]
  obtain ⟨hleads, -⟩ := (parses_parse (n := 0)).sound htext.sound hrun
  have hclean := hleads.clean_iff.1 (hleads.sound.clean_of_view hview)
  obtain ⟨hsound, hcomplete⟩ := parse_grammar htext
  obtain ⟨taken, htaken, hderives⟩ := hsound _ after hrun
  rw [hview, List.append_nil] at htaken
  rw [← htaken] at hderives
  obtain ⟨after', hrun', -, hend'⟩ := hcomplete _ hclean hderives
  exact ⟨cursor, after', htext, hclean, hderives, hrun', hend'⟩

end TypeExpr

end Offside
