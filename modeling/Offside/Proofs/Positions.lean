import Offside.Proofs.Indentation
import Offside.Proofs.Scanner.Lines

/-!
# Where nodes come from

Every node of a parsed tree carries the place of its statement (`positions_of_parse`): the nodes
that are reached from a statement without entering a block all have the file of the text and the
line of the first token of the statement; blocks carry no place; and the lines of statements never
go back, neither within a block nor on the way into one.

The rules stamp what they find over and over, an inner expression before the outer one, and stop at
blocks. So what an induction over phrases can keep is a fact about the blocks of a tree alone
(`Expr.Positioned`); the nodes around them get their place from the last stamp
(`Expr.Near.origin_eq`).
-/

namespace Offside

/-! ## Trees -/

namespace Expr

/-- A node that is reached without entering a block, and that is no block itself. -/
inductive Near : Expr → Expr → Prop
  | refl {expr : Expr} (hkind : expr.kind ≠ .block) : Near expr expr
  | child {inner child outer : Expr} (hkind : outer.kind ≠ .block) (hchild : child ∈ outer.children)
    (h : Near inner child) : Near inner outer

theorem Near.kind_ne {inner outer : Expr} (h : Near inner outer) : outer.kind ≠ .block := by
  cases h <;> assumption

/-- A stamp reaches every near node. -/
theorem Near.origin_eq {origin : Origin} {node expr : Expr} (h : Near node (expr.stamp origin)) :
    node.origin = origin := by
  generalize hstamp : expr.stamp origin = outer at h
  induction h generalizing expr with
  | refl hkind =>
    rw [← hstamp, kind_stamp] at hkind
    rw [← hstamp, origin_stamp hkind]
  | child hkind hchild _ ih =>
    rw [← hstamp, kind_stamp] at hkind
    rw [← hstamp, children_stamp hkind] at hchild
    obtain ⟨child, -, hchild⟩ := List.mem_map.1 hchild
    exact ih hchild

/-- A node that is no block is near to the root, or to a statement of a block in the tree. -/
theorem Within.near_or {inner outer : Expr} (h : Within inner outer) (hkind : inner.kind ≠ .block) :
    Near inner outer ∨ ∃ body statement, Within (.block body) outer ∧
      statement ∈ body.contents ∧ Near inner statement := by
  induction h with
  | refl => exact .inl (.refl hkind)
  | @child child outer hchild _ ih =>
    rcases ih with hnear | ⟨body, statement, hbody, hmem, hnear⟩
    · by_cases houter : outer.kind = .block
      · cases outer <;> cases houter
        exact .inr ⟨_, child, .refl, hchild, hnear⟩
      · exact .inl (.child houter hchild hnear)
    · exact .inr ⟨body, statement, .child hchild hbody, hmem, hnear⟩

end Expr

/-! ## Statements in their places -/

namespace Phrase

/-- Statements that the tokens spell one after another. All that is near to a statement comes from
the line of its first token, which is not a newline token. -/
inductive InPlace (file : String) : List Token → List Expr → Prop
  | nil {tokens : List Token} : InPlace file tokens []
  | cons {tokens others rest : List Token} {token : Token} {statement : Expr}
    {statements : List Expr} (hskip : tokens.dropWhile Token.isNewline = token :: others)
    (hspelled : Expression file .lowest tokens statement rest)
    (hnear : ∀ node, Expr.Near node statement → node.origin = { file, line := token.line })
    (hrest : InPlace file rest statements) : InPlace file tokens (statement :: statements)

end Phrase

open Phrase

/-- Statements that are spelled by some of the given tokens, each further down than the one before
and none above a line. -/
structure Phrase.Descends (file : String) (all : List Token) (line : Nat) (statements : List Expr) :
    Prop where
  place : ∃ tokens, tokens <:+ all ∧ InPlace file tokens statements
  ordered : statements.Pairwise (·.origin.line ≤ ·.origin.line)
  below : ∀ statement ∈ statements, line ≤ statement.origin.line

namespace Expr

/-- The blocks of the tree have no place of their own. Their statements go down from the line, and
so do the statements in those. -/
inductive Positioned (file : String) (all : List Token) : Nat → Expr → Prop
  | node {line : Nat} {expr : Expr} (hkind : expr.kind ≠ .block)
    (hchildren : ∀ child ∈ expr.children, Positioned file all line child) :
    Positioned file all line expr
  | block {line : Nat} {contents : List Expr} (hdescends : Descends file all line contents)
    (hstatements : ∀ statement ∈ contents, Positioned file all statement.origin.line statement) :
    Positioned file all line (.block { contents })

variable {file : String} {all : List Token} {line line' : Nat}

theorem Positioned.mono {expr : Expr} (h : Positioned file all line expr) (hline : line' ≤ line) :
    Positioned file all line' expr := by
  induction h with
  | node hkind _ ih => exact .node hkind fun child hchild => ih child hchild hline
  | block hdescends hstatements =>
    obtain ⟨hplace, hordered, hbelow⟩ := hdescends
    exact .block ⟨hplace, hordered, fun statement hmem =>
      Nat.le_trans hline (hbelow statement hmem)⟩ hstatements

theorem Positioned.stamp (origin : Origin) {expr : Expr} (h : Positioned file all line expr) :
    Positioned file all line (expr.stamp origin) := by
  induction h with
  | node hkind _ ih => exact .node (by rwa [kind_stamp]) (forall_children_stamp hkind ih)
  | block hdescends hstatements => exact .block hdescends hstatements

/-- A node without nodes below it. -/
theorem Positioned.leaf {expr : Expr} (hkind : expr.kind ≠ .block) (h : expr.children = []) :
    Positioned file all line expr :=
  .node hkind (by simp [h])

/-- A branch that is missing. -/
theorem positioned_empty : Positioned file all line (.block {}) :=
  .block ⟨⟨[], List.nil_suffix, .nil⟩, .nil, by simp⟩ (by simp)

theorem Positioned.children {expr : Expr} (h : Positioned file all line expr)
    (hkind : expr.kind ≠ .block) : ∀ child ∈ expr.children, Positioned file all line child := by
  cases h with
  | node _ hchildren => exact hchildren
  | block => exact absurd rfl hkind

theorem Positioned.within {inner outer : Expr} (h : Positioned file all line outer)
    (hin : Within inner outer) : ∃ line', line ≤ line' ∧ Positioned file all line' inner := by
  induction hin generalizing line with
  | refl => exact ⟨line, Nat.le_refl _, h⟩
  | child hchild _ ih =>
    cases h with
    | node _ hchildren => exact ih (hchildren _ hchild)
    | block hdescends hstatements =>
      obtain ⟨line', hle, hinner⟩ := ih (hstatements _ hchild)
      exact ⟨line', Nat.le_trans (hdescends.below _ hchild) hle, hinner⟩

end Expr

/-! ## Phrases -/

namespace Phrase

open Offside.Expr (Positioned)

/-- Some last tokens of a text whose lines never go back, and none of them is above a line. -/
structure Follows (all : List Token) (line : Nat) (tokens : List Token) : Prop where
  ordered : all.Pairwise (·.line ≤ ·.line)
  suffix : tokens <:+ all
  below : ∀ token ∈ tokens, line ≤ token.line

theorem Follows.mono {all tokens rest : List Token} {line : Nat} (h : Follows all line tokens)
    (hsuffix : rest <:+ tokens) : Follows all line rest :=
  ⟨h.ordered, hsuffix.trans h.suffix, fun token hmem => h.below token (hsuffix.subset hmem)⟩

theorem Follows.tail {all tokens : List Token} {token : Token} {line : Nat}
    (h : Follows all line (token :: tokens)) : Follows all line tokens :=
  h.mono (List.suffix_cons _ _)

variable {file : String} {all : List Token}

/-- The tokens after one are not above it. -/
theorem Follows.head {tokens : List Token} {token : Token} {line : Nat}
    (h : Follows all line (token :: tokens)) :
    line ≤ token.line ∧ Follows all token.line tokens := by
  have hordered := h.ordered.sublist h.suffix.sublist
  exact ⟨h.below token List.mem_cons_self, h.ordered, h.tail.suffix,
    (List.pairwise_cons.1 hordered).1⟩

theorem Follows.skip {tokens others : List Token} {token : Token} {line : Nat}
    (h : Follows all line tokens) (hskip : tokens.dropWhile Token.isNewline = token :: others) :
    Follows all line (token :: others) :=
  h.mono (hskip ▸ List.dropWhile_suffix _)

/-- What an expression has after its last stamp: all that is near to it comes from the line of its
first token. Inside another expression it goes down from the line of that one. -/
structure Stamped (file : String) (all : List Token) (line : Nat) (tokens : List Token)
    (expr : Expr) (rest : List Token) : Prop where
  near : ∃ token others, tokens.dropWhile Token.isNewline = token :: others ∧ rest <:+ others ∧
    ∀ node, Expr.Near node expr → node.origin = { file, line := token.line }
  positioned : Positioned file all expr.origin.line expr
  inside : Positioned file all line expr

/-- A statement before others goes down with them. -/
theorem Stamped.cons {tokens rest : List Token} {statement : Expr} {line : Nat}
    {statements : List Expr} (hstamped : Stamped file all line tokens statement rest)
    (h : Follows all line tokens) (hspelled : Expression file .lowest tokens statement rest)
    (hrest : Follows all statement.origin.line rest → InPlace file rest statements ∧
      Descends file all statement.origin.line statements ∧
        ∀ later ∈ statements, Positioned file all later.origin.line later) :
    InPlace file tokens (statement :: statements) ∧
      Descends file all line (statement :: statements) ∧
        ∀ later ∈ statement :: statements, Positioned file all later.origin.line later := by
  obtain ⟨token, others, hskip, hsuffix, hnear⟩ := hstamped.near
  have hline : statement.origin.line = token.line := by rw [hnear _ (.refl hspelled.kind_ne)]
  obtain ⟨hbelow, hafter⟩ := (h.skip hskip).head
  rw [← hline] at hbelow hafter
  obtain ⟨hplace, hdescends, hpositioned⟩ := hrest (hafter.mono hsuffix)
  have hplace' : InPlace file tokens (statement :: statements) :=
    .cons hskip hspelled hnear hplace
  refine ⟨hplace', ⟨⟨tokens, h.suffix, hplace'⟩,
    List.pairwise_cons.2 ⟨hdescends.below, hdescends.ordered⟩,
    List.forall_mem_cons.2 ⟨hbelow, fun later hmem => ?_⟩⟩,
    List.forall_mem_cons.2 ⟨hstamped.positioned, hpositioned⟩⟩
  exact Nat.le_trans hbelow (hdescends.below later hmem)

mutual

theorem Expression.positions : ∀ {floor : Power} {tokens rest : List Token} {expr : Expr}
    {line : Nat}, Expression file floor tokens expr rest → Follows all line tokens →
      Stamped file all line tokens expr rest
  | _, _, _, _, _, .intro hskip hstart hextend, h => by
    have hfirst := h.skip hskip
    obtain ⟨hbelow, hafter⟩ := hfirst.head
    have hhere : Follows all _ (_ :: _) := ⟨h.ordered, hfirst.suffix,
      List.forall_mem_cons.2 ⟨Nat.le_refl _, hafter.below⟩⟩
    have hwhole := hextend.positions hstart.kind_ne (hstart.positions hhere)
      (hhere.mono hstart.takes.suffix)
    refine ⟨⟨_, _, hskip, hextend.suffix.trans hstart.takes.2,
      fun node hnear => hnear.origin_eq⟩, ?_, (hwhole.stamp _).mono hbelow⟩
    rw [Expr.origin_stamp (hextend.kind_ne hstart.kind_ne)]
    exact hwhole.stamp _

theorem Start.positions : ∀ {tokens rest : List Token} {expr : Expr} {line : Nat},
    Start file tokens expr rest → Follows all line tokens → Positioned file all line expr
  | _, _, _, _, .literal hliteral, _ => by
    obtain ⟨hkind, hchildren⟩ := Token.leaf_of_literal hliteral
    exact .leaf hkind hchildren
  | _, _, _, _, .reference _ _, _ => .leaf (by simp [Expr.kind]) rfl
  | _, _, _, _, .unit _ _, _ => .leaf (by simp [Expr.kind]) rfl
  | _, _, _, _, .group _ hexpr _, h => (hexpr.positions h.tail).inside
  | _, _, _, _, .arguments _ hfirst hothers, h => by
    have hfirst' := (hfirst.positions h.tail).inside
    have hothers' := hothers.positions (h.tail.mono hfirst.takes.suffix)
    exact .node (by simp [Expr.kind]) (List.forall_mem_cons.2 ⟨hfirst', hothers'⟩)
  | _, _, _, _, .moduleDef _ _ hbody, h =>
    .node (by simp [Expr.kind]) (List.forall_mem_singleton.2 (hbody.positions h.tail.tail))
  | _, _, _, _, .useDef _ _ _, _ => .leaf (by simp [Expr.kind]) rfl
  | _, _, _, _, .functionDef _ _ hparams hresult hbody, h => by
    have hbody' := hbody.positions (h.tail.tail.mono (hresult.suffix.trans hparams.suffix))
    refine .node (by simp [Expr.kind]) fun child hchild => ?_
    rcases List.mem_append.1 hchild with hparam | hblock
    · obtain ⟨param, -, rfl⟩ := List.mem_map.1 hparam
      exact .leaf (by simp [Expr.kind]) rfl
    · cases List.mem_singleton.1 hblock
      exact hbody'
  | _, _, _, _, .ifElse _ hcondition htrue hskip _ hfalse, h => by
    have hcondition' := (hcondition.positions h.tail).inside
    have hafter := h.tail.mono hcondition.takes.suffix
    have hwhenTrue := htrue.positions hafter
    have hwhenFalse := hfalse.positions ((hafter.mono htrue.takes.suffix).skip hskip).tail
    exact .node (by simp [Expr.kind]) (List.forall_mem_cons.2 ⟨hcondition',
      List.forall_mem_cons.2 ⟨hwhenTrue, List.forall_mem_singleton.2 hwhenFalse⟩⟩)
  | _, _, _, _, .ifOnly _ hcondition htrue _ _, h => by
    have hcondition' := (hcondition.positions h.tail).inside
    have hwhenTrue := htrue.positions (h.tail.mono hcondition.takes.suffix)
    exact .node (by simp [Expr.kind]) (List.forall_mem_cons.2 ⟨hcondition',
      List.forall_mem_cons.2 ⟨hwhenTrue, List.forall_mem_singleton.2 Expr.positioned_empty⟩⟩)

theorem Extension.positions : ∀ {floor : Power} {left whole : Expr} {tokens rest : List Token}
    {line : Nat}, Extension file floor left tokens whole rest → left.kind ≠ .block →
      Positioned file all line left → Follows all line tokens → Positioned file all line whole
  | _, _, _, _, _, _, .stop _, _, hleft, _ => hleft
  | _, _, _, _, _, _, .binary _ _ hright hrest, _, hleft, h => by
    have hright' := (hright.positions h.tail).inside
    refine hrest.positions (by simp [Expr.kind]) (.node (by simp [Expr.kind]) ?_)
      (h.tail.mono hright.takes.suffix)
    exact List.forall_mem_cons.2 ⟨hleft, List.forall_mem_singleton.2 hright'⟩
  | _, _, _, _, _, _, .assign _ _ hvalue hrest, _, hleft, h => by
    have hvalue' := (hvalue.positions h.tail).inside
    refine hrest.positions (by simp [Expr.kind]) (.node (by simp [Expr.kind]) ?_)
      (h.tail.mono hvalue.takes.suffix)
    exact List.forall_mem_cons.2 ⟨hleft, List.forall_mem_singleton.2 hvalue'⟩
  | _, _, _, _, _, _, .call _ _ htarget hrest, hkind, hleft, h => by
    have htarget' := (htarget.positions h.tail).inside
    refine hrest.positions (by simp [Expr.kind]) (.node (by simp [Expr.kind]) ?_)
      (h.tail.mono htarget.takes.suffix)
    exact List.forall_mem_cons.2 ⟨htarget',
      Expr.forall_callArguments (hleft.children hkind) fun _ => hleft⟩

theorem Arguments.positions : ∀ {tokens rest : List Token} {args : List Expr} {line : Nat},
    Arguments file tokens args rest → Follows all line tokens →
      ∀ arg ∈ args, Positioned file all line arg
  | _, _, _, _, .close _, _ => by simp
  | _, _, _, _, .next _ harg hothers, h => by
    have harg' := (harg.positions h.tail).inside
    exact List.forall_mem_cons.2
      ⟨harg', hothers.positions (h.tail.mono harg.takes.suffix)⟩

theorem Body.positions : ∀ {tokens rest : List Token} {body : Expr} {line : Nat},
    Body file tokens body rest → Follows all line tokens →
      Positioned file all line (.block body.toBlock)
  | _, _, _, _, .block hskip _ hcontents _, h => by
    obtain ⟨-, hdescends, hpositioned⟩ := Statements.positions hcontents (h.skip hskip).tail
    exact .block hdescends hpositioned
  | _, _, _, _, .single hexpr, h => by
    have hstamped := hexpr.positions h
    obtain ⟨-, hdescends, hpositioned⟩ := hstamped.cons h hexpr fun hafter =>
      ⟨.nil, ⟨⟨_, hafter.suffix, .nil⟩, .nil, by simp⟩, by simp⟩
    rw [Expr.toBlock_of_kind_ne hexpr.kind_ne]
    exact .block hdescends hpositioned

theorem Statements.positions : ∀ {tokens rest : List Token} {contents : List Expr} {line : Nat},
    Statements file tokens contents rest → Follows all line tokens →
      InPlace file tokens contents ∧ Descends file all line contents ∧
        ∀ statement ∈ contents, Positioned file all statement.origin.line statement
  | _, _, _, _, .stop _, h => ⟨.nil, ⟨⟨_, h.suffix, .nil⟩, .nil, by simp⟩, by simp⟩
  | _, _, _, _, .more hexpr hrest, h => by
    exact (hexpr.positions h).cons h hexpr fun hafter => Statements.positions hrest hafter

end

theorem Program.positions {tokens rest : List Token} {contents : List Expr} {line : Nat}
    (hprogram : Program file tokens contents rest) (h : Follows all line tokens) :
    InPlace file tokens contents ∧ Descends file all line contents ∧
      ∀ statement ∈ contents, Positioned file all statement.origin.line statement := by
  induction hprogram generalizing line with
  | stop => exact ⟨.nil, ⟨⟨_, h.suffix, .nil⟩, .nil, by simp⟩, by simp⟩
  | more hexpr _ ih => exact (hexpr.positions h).cons h hexpr fun hafter => ih hafter

theorem InPlace.file_eq {tokens : List Token} {statements : List Expr}
    (h : InPlace file tokens statements) : ∀ statement ∈ statements, ∀ node,
      Expr.Near node statement → node.origin.file = file := by
  induction h with
  | nil => simp
  | cons _ _ hnear _ ih =>
    exact List.forall_mem_cons.2 ⟨fun node hnode => by rw [hnear node hnode], ih⟩

end Phrase

/-! ## Texts -/

/-- The nodes of a block have the places of their tokens, in the file `file`. -/
structure Block.Positions (file : String) (tokens : List Token) (block : Block Expr) : Prop where
  /-- The statements are those that the tokens spell. -/
  place : InPlace file tokens block.contents
  /-- The statements of every body are spelled by some of the tokens. -/
  places : ∀ body, Expr.Within (.block body) (.block block) →
    ∃ start, start <:+ tokens ∧ InPlace file start body.contents
  /-- Every node but the blocks comes from the file. -/
  file_eq : ∀ node, Expr.Within node (.block block) → node.kind ≠ .block → node.origin.file = file
  /-- Blocks come from no place. -/
  unstamped : ∀ body, Expr.Within (.block body) (.block block) → body.origin = {}
  /-- The statements of a block go down the text. -/
  ordered : ∀ body, Expr.Within (.block body) (.block block) →
    body.contents.Pairwise (·.origin.line ≤ ·.origin.line)
  /-- The statements of a body are not above the statement around it. -/
  inside : ∀ outer, Expr.Within (.block outer) (.block block) → ∀ statement ∈ outer.contents,
    ∀ body, Expr.Within (.block body) statement → ∀ inner ∈ body.contents,
      statement.origin.line ≤ inner.origin.line

variable {source : String} {file : Option String} {block : Block Expr}

/-- The nodes of a parsed tree have the places of their tokens, which stand on their lines in the
text. -/
theorem positions_of_parse (h : (parse source file).result = .ok block) :
    ∃ tokens last, (tokenize source file).result = .ok (tokens ++ [last]) ∧
      block.Positions (file.getD Scanner.unknownFile) tokens ∧
        ∀ token ∈ tokens, token.kind.isSynthetic = false → token.StandsIn source := by
  obtain ⟨tokens, last, htokens, horigin, hprogram⟩ := parse_eq_ok_iff.1 h
  have hfollows : Follows tokens 0 tokens :=
    ⟨lines_of_tokenize htokens, List.suffix_rfl, fun _ _ => Nat.zero_le _⟩
  obtain ⟨origin, contents⟩ := block
  cases horigin
  generalize file.getD Scanner.unknownFile = name at hprogram ⊢
  obtain ⟨hplace, hdescends, hstatements⟩ := hprogram.positions hfollows
  have hroot : Expr.Positioned name tokens 0 (.block { contents }) := .block hdescends hstatements
  have hbody {body : Block Expr} (hin : Expr.Within (.block body) (.block { contents })) :
      body.origin = {} ∧ (∃ line, Descends name tokens line body.contents) ∧
        ∀ statement ∈ body.contents,
          Expr.Positioned name tokens statement.origin.line statement := by
    obtain ⟨line, -, hpositioned⟩ := hroot.within hin
    cases hpositioned with
    | node hkind => exact absurd rfl hkind
    | block hdescends hstatements => exact ⟨rfl, ⟨line, hdescends⟩, hstatements⟩
  refine ⟨tokens, last, htokens, ⟨hplace, fun body hin => ?_, fun node hin hkind => ?_,
    fun body hin => (hbody hin).1, fun body hin => ?_,
    fun outer hin statement hmem body hbody' inner hinner => ?_⟩, standsIn_of_tokenize htokens⟩
  · obtain ⟨-, ⟨line, hdescends⟩, -⟩ := hbody hin
    exact hdescends.place
  · rcases hin.near_or hkind with hnear | ⟨body, statement, hin, hmem, hnear⟩
    · exact absurd rfl hnear.kind_ne
    · obtain ⟨-, ⟨line, hdescends⟩, -⟩ := hbody hin
      obtain ⟨start, -, hplace⟩ := hdescends.place
      exact hplace.file_eq statement hmem node hnear
  · obtain ⟨-, ⟨line, hdescends⟩, -⟩ := hbody hin
    exact hdescends.ordered
  · obtain ⟨-, -, hstatements⟩ := hbody hin
    obtain ⟨line, hle, hpositioned⟩ := (hstatements statement hmem).within hbody'
    cases hpositioned with
    | node hkind => exact absurd rfl hkind
    | block hdescends _ => exact Nat.le_trans hle (hdescends.below inner hinner)

theorem positions_of_parse_nested :
    let source := "fn f\n  if a\n    (b,\n    c) -> d\n  e\n\nmodule M g"
    ∃ block tokens last, (parse source (some "m")).result = .ok block ∧
      (tokenize source (some "m")).result = .ok (tokens ++ [last]) ∧ block.Positions "m" tokens := by
  intro source
  obtain ⟨block, hblock⟩ := exists_of_isOk
    (by decide +kernel : (parse source (some "m")).result.isOk = true)
  obtain ⟨tokens, last, htokens, hpositions, -⟩ := positions_of_parse hblock
  exact ⟨block, tokens, last, hblock, htokens, hpositions⟩

end Offside
