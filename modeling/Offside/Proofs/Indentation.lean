import Offside.Proofs.Expr.Children
import Offside.Proofs.Phrase.Skips
import Offside.Proofs.Program
import Offside.Proofs.Scanner.Laid

/-!
# Blocks are what is indented

The blocks of a tree are the indented parts of its text (`followsIndentation_of_parse`): the
statements of one block stand on lines of the same width, those of the text itself on lines without
indentation, and those of a block of several statements further to the right than any statement
around them.

A phrase closes every block that it opens, unless the text ends before, so it leaves the widths of
the open blocks as they are (`Phrase.Standing`). On the way the statements of a block are found to
begin on lines of the width of that block (`Expr.Settled`).
-/

namespace Offside

/-! ## Trees -/

namespace Expr

/-- The statements of every block in the tree begin on lines of one width. That is more than the
width around the block, or else the block is no more than one statement. -/
inductive Settled (w : Nat → Nat) : Nat → Expr → Prop
  | node {width : Nat} {expr : Expr} (hkind : expr.kind ≠ .block)
    (hchildren : ∀ child ∈ expr.children, Settled w width child) : Settled w width expr
  | block {width level : Nat} {body : Block Expr}
    (hlevel : width < level ∨ width = level ∧ body.contents.length ≤ 1)
    (hlines : ∀ statement ∈ body.contents, w statement.origin.line = level)
    (hstatements : ∀ statement ∈ body.contents, Settled w level statement) :
    Settled w width (.block body)

variable {w : Nat → Nat} {width : Nat}

theorem Settled.stamp (origin : Origin) {expr : Expr} (h : Settled w width expr) :
    Settled w width (expr.stamp origin) := by
  induction h with
  | node hkind _ ih => exact .node (by rwa [kind_stamp]) (forall_children_stamp hkind ih)
  | block hlevel hlines hstatements => exact .block hlevel hlines hstatements

/-- A node without nodes below it. -/
theorem Settled.leaf {expr : Expr} (hkind : expr.kind ≠ .block) (h : expr.children = []) :
    Settled w width expr :=
  .node hkind (by simp [h])

/-- A branch that is missing. -/
theorem settled_empty : Settled w width (.block {}) :=
  .block (.inr ⟨rfl, Nat.zero_le 1⟩) (by simp) (by simp)

theorem Settled.children {expr : Expr} (h : Settled w width expr) (hkind : expr.kind ≠ .block) :
    ∀ child ∈ expr.children, Settled w width child := by
  cases h with
  | node _ hchildren => exact hchildren
  | block => exact absurd rfl hkind

/-- A single statement on a line as wide as the innermost block. -/
theorem settled_toBlock {expr : Expr} (hkind : expr.kind ≠ .block) (h : Settled w width expr)
    (hline : w expr.origin.line = width) : Settled w width (.block expr.toBlock) := by
  rw [toBlock_of_kind_ne hkind]
  exact .block (.inr ⟨rfl, Nat.le_refl 1⟩) (List.forall_mem_singleton.2 hline)
    (List.forall_mem_singleton.2 h)

theorem Settled.within {inner outer : Expr} (h : Settled w width outer) (hin : Within inner outer) :
    ∃ level, width ≤ level ∧ Settled w level inner := by
  induction hin generalizing width with
  | refl => exact ⟨width, Nat.le_refl _, h⟩
  | child hchild _ ih =>
    cases h with
    | node _ hchildren => exact ih (hchildren _ hchild)
    | block hlevel _ hstatements =>
      obtain ⟨level, hle, hsettled⟩ := ih (hstatements _ hchild)
      exact ⟨level, by omega, hsettled⟩

end Expr

namespace Phrase

/-! ## Tokens below open blocks -/

/-- Tokens that are laid below open blocks of the given widths. -/
structure Standing (w : Nat → Nat) (widths : List Nat) (tokens : List Token) : Prop where
  proper : Proper tokens
  laid : Laid w widths tokens

variable {w : Nat → Nat} {widths : List Nat} {file : String}

theorem Skips.laid {tokens rest : List Token}
    (h : Skips tokens rest) (hlaid : Laid w widths tokens) : Laid w widths rest := by
  induction h with
  | refl => exact hlaid
  | cons hkind _ ih => exact ih ((laid_plain hkind).1 hlaid).2

theorem Standing.skips {tokens rest : List Token} (h : Standing w widths tokens)
    (hskips : Skips tokens rest) (hsuffix : rest <:+ tokens) : Standing w widths rest :=
  ⟨h.proper.mono hsuffix, hskips.laid h.laid⟩

theorem Standing.tail {token : Token} {tokens : List Token}
    (h : Standing w widths (token :: tokens))
    (hkind : token.kind ∉ [.newline, .indent, .outdent]) : Standing w widths tokens :=
  h.skips (.cons hkind .refl) (List.suffix_cons _ _)

theorem Standing.mark {token : Token} {tokens : List Token}
    (h : Standing w widths (token :: tokens)) (mark : String × Token.Kind)
    (hvalue : token.value = mark.1) (hmark : mark ∈ Token.marks := by decide)
    (hkind : mark.2 ∉ [Token.Kind.newline, .indent, .outdent] := by decide) :
    Standing w widths tokens :=
  h.skips (.mark h.proper.head mark hvalue .refl hmark hkind) (List.suffix_cons _ _)

theorem Standing.keyword {token : Token} {tokens : List Token} {text : String}
    (h : Standing w widths (token :: tokens)) (hkeyword : token.isKeyword text = true) :
    Standing w widths tokens :=
  h.skips (.keyword hkeyword .refl) (List.suffix_cons _ _)

theorem laid_dropWhile {tokens : List Token} (h : Laid w widths tokens) :
    Laid w widths (tokens.dropWhile Token.isNewline) := by
  induction tokens with
  | nil => exact h
  | cons token tokens ih =>
    by_cases hnewline : token.isNewline = true
    · rw [List.dropWhile_cons_of_pos hnewline]
      exact ih ((laid_newline (beq_iff_eq.1 hnewline)).1 h)
    · rwa [List.dropWhile_cons_of_neg hnewline]

theorem Standing.dropWhile {tokens : List Token} (h : Standing w widths tokens) :
    Standing w widths (tokens.dropWhile Token.isNewline) :=
  ⟨h.proper.mono (List.dropWhile_suffix _), laid_dropWhile h.laid⟩

theorem Standing.pastNewline {tokens : List Token} (h : Standing w widths tokens) :
    Standing w widths (pastNewline tokens) := by
  refine ⟨h.proper.mono (pastNewline_suffix _), ?_⟩
  cases tokens with
  | nil => trivial
  | cons token tokens =>
    rw [Phrase.pastNewline]
    split
    · rename_i hnewline
      exact (laid_newline (beq_iff_eq.1 hnewline)).1 h.laid
    · exact h.laid

/-- The end of a block closes it. -/
theorem Standing.endsBlock {level : Nat} {tokens middle : List Token}
    (h : Standing w (level :: widths) middle) (hend : EndsBlock tokens middle) :
    Standing w widths (Phrase.pastNewline middle.tail) := by
  refine Standing.pastNewline ⟨h.proper.mono (List.tail_suffix _), ?_⟩
  cases middle with
  | nil => trivial
  | cons token others => exact (laid_outdent (ahead_cons.1 hend.2)).1 h.laid

/-- An expression whose blocks are settled, and after it tokens below the same open blocks. -/
structure Settles (w : Nat → Nat) (widths : List Nat) (expr : Expr) (rest : List Token) : Prop where
  settled : expr.Settled w (widths.headD 0)
  standing : Standing w widths rest

theorem plain_of_start {token : Token} {tokens rest : List Token} {expr : Expr}
    (h : Start file (token :: tokens) expr rest) :
    token.kind ∉ [.newline, .indent, .outdent] := by
  have hkind := Grammar.kind_of_start h
  revert hkind
  cases token.kind <;> simp

mutual

theorem Expression.settles : ∀ {floor : Power} {tokens rest : List Token} {expr : Expr}
    {widths : List Nat}, Expression file floor tokens expr rest → Standing w widths tokens →
      Settles w widths expr rest ∧ w expr.origin.line = widths.headD 0
  | _, _, _, _, _, .intro hskip hstart hextend, h => by
    have hfirst := h.dropWhile
    rw [hskip] at hfirst
    have hbegin := hstart.settles hfirst
    have hwhole := hextend.settles hstart.kind_ne hbegin.settled hbegin.standing
    refine ⟨⟨hwhole.settled.stamp _, hwhole.standing⟩, ?_⟩
    rw [Expr.origin_stamp (hextend.kind_ne hstart.kind_ne)]
    exact ((laid_plain (plain_of_start hstart)).1 hfirst.laid).1

theorem Start.settles : ∀ {tokens rest : List Token} {expr : Expr} {widths : List Nat},
    Start file tokens expr rest → Standing w widths tokens → Settles w widths expr rest
  | _, _, _, _, .literal hliteral, h => by
    obtain ⟨hkind, hchildren⟩ := Token.leaf_of_literal hliteral
    have hstart : Start file [_] _ [] := .literal hliteral
    exact ⟨.leaf hkind hchildren, h.tail (plain_of_start hstart)⟩
  | _, _, _, _, .reference hkind hscope, h =>
    have hscoped := h.tail (by simp [hkind])
    ⟨.leaf (by simp [Expr.kind]) rfl,
      hscoped.skips (hscope.skips hscoped.proper) hscope.takes.suffix⟩
  | _, _, _, _, .unit hopen hclose, h =>
    ⟨.leaf (by simp [Expr.kind]) rfl,
      (h.tail (by simp [hopen])).mark (")", .rightParen) hclose⟩
  | _, _, _, _, .group hopen hexpr hclose, h => by
    obtain ⟨hsettles, -⟩ := hexpr.settles (h.tail (by simp [hopen]))
    exact ⟨hsettles.settled, hsettles.standing.mark (")", .rightParen) hclose⟩
  | _, _, _, _, .arguments hopen hfirst hothers, h => by
    obtain ⟨hsettles, -⟩ := hfirst.settles (h.tail (by simp [hopen]))
    obtain ⟨hall, hrest⟩ := hothers.settles hsettles.standing
    exact ⟨.node (by simp [Expr.kind])
      (List.forall_mem_cons.2 ⟨hsettles.settled, hall⟩), hrest⟩
  | _, _, _, _, .moduleDef hmodule hname hbody, h => by
    obtain ⟨hsettled, hrest⟩ := hbody.settles ((h.keyword hmodule).tail (by simp [hname]))
    exact ⟨.node (by simp [Expr.kind]) (by simpa [Expr.children] using hsettled),
      hrest⟩
  | _, _, _, _, .useDef huse hname hpath, h =>
    have hafter := (h.keyword huse).tail (by simp [hname])
    ⟨.leaf (by simp [Expr.kind]) rfl,
      hafter.skips (UsePath.skips hpath hafter.proper) (UsePath.suffix hpath)⟩
  | _, _, _, _, .functionDef hfn hname hparams hresult hbody, h => by
    have hparams' := (h.keyword hfn).tail (by simp [hname])
    have hresult' := hparams'.skips (hparams.skips hparams'.proper) hparams.suffix
    have hbody' := hresult'.skips (hresult.skips hresult'.proper) hresult.suffix
    obtain ⟨hsettled, hrest⟩ := hbody.settles hbody'
    refine ⟨.node (by simp [Expr.kind]) fun child hchild => ?_, hrest⟩
    rcases List.mem_append.1 hchild with hparam | hblock
    · obtain ⟨param, -, rfl⟩ := List.mem_map.1 hparam
      exact .leaf (by simp [Expr.kind]) rfl
    · cases List.mem_singleton.1 hblock
      exact hsettled
  | _, _, _, _, .ifElse hif hcondition htrue hskip helse hfalse, h => by
    obtain ⟨hsettles, -⟩ := hcondition.settles (h.keyword hif)
    obtain ⟨hsettled₁, hrest₁⟩ := htrue.settles hsettles.standing
    have hnext := hrest₁.dropWhile
    rw [hskip] at hnext
    obtain ⟨hsettled₂, hrest₂⟩ := hfalse.settles (hnext.keyword helse)
    exact ⟨.node (by simp [Expr.kind])
      (List.forall_mem_cons.2 ⟨hsettles.settled, List.forall_mem_cons.2
        ⟨hsettled₁, List.forall_mem_singleton.2 hsettled₂⟩⟩), hrest₂⟩
  | _, _, _, _, .ifOnly hif hcondition htrue hrest _, h => by
    obtain ⟨hsettles, -⟩ := hcondition.settles (h.keyword hif)
    obtain ⟨hsettled, hrest'⟩ := htrue.settles hsettles.standing
    exact ⟨.node (by simp [Expr.kind])
      (List.forall_mem_cons.2 ⟨hsettles.settled, List.forall_mem_cons.2
        ⟨hsettled, List.forall_mem_singleton.2 Expr.settled_empty⟩⟩), hrest ▸ hrest'.dropWhile⟩

theorem Extension.settles : ∀ {floor : Power} {left whole : Expr} {tokens rest : List Token}
    {widths : List Nat}, Extension file floor left tokens whole rest → left.kind ≠ .block →
      left.Settled w (widths.headD 0) → Standing w widths tokens → Settles w widths whole rest
  | _, _, _, _, _, _, .stop _, _, hleft, h => ⟨hleft, h⟩
  | _, _, _, _, _, _, .binary hpower _ hright hrest, _, hleft, h => by
    have hkind := kind_of_binaryPower? hpower
    obtain ⟨hsettles, -⟩ := hright.settles (h.tail (by simp [hkind]))
    refine hrest.settles (by simp [Expr.kind]) (.node (by simp [Expr.kind]) ?_) hsettles.standing
    exact List.forall_mem_cons.2 ⟨hleft, List.forall_mem_singleton.2 hsettles.settled⟩
  | _, _, _, _, _, _, .assign hequals _ hvalue hrest, _, hleft, h => by
    obtain ⟨hsettles, -⟩ := hvalue.settles (h.mark ("=", .special) hequals)
    refine hrest.settles (by simp [Expr.kind]) (.node (by simp [Expr.kind]) ?_) hsettles.standing
    exact List.forall_mem_cons.2 ⟨hleft, List.forall_mem_singleton.2 hsettles.settled⟩
  | _, _, _, _, _, _, .call harrow _ htarget hrest, hkind, hleft, h => by
    obtain ⟨hsettles, -⟩ := htarget.settles (h.mark ("->", .special) harrow)
    refine hrest.settles (by simp [Expr.kind]) (.node (by simp [Expr.kind]) ?_) hsettles.standing
    exact List.forall_mem_cons.2 ⟨hsettles.settled,
      Expr.forall_callArguments (hleft.children hkind) fun _ => hleft⟩

theorem Arguments.settles : ∀ {tokens rest : List Token} {args : List Expr} {widths : List Nat},
    Arguments file tokens args rest → Standing w widths tokens →
      (∀ arg ∈ args, arg.Settled w (widths.headD 0)) ∧ Standing w widths rest
  | _, _, _, _, .close hclose, h => ⟨by simp, h.mark (")", .rightParen) hclose⟩
  | _, _, _, _, .next hcomma harg hothers, h => by
    obtain ⟨hsettles, -⟩ := harg.settles (h.mark (",", .special) hcomma)
    obtain ⟨hall, hrest⟩ := hothers.settles hsettles.standing
    exact ⟨List.forall_mem_cons.2 ⟨hsettles.settled, hall⟩, hrest⟩

theorem Body.settles : ∀ {tokens rest : List Token} {body : Expr} {widths : List Nat},
    Body file tokens body rest → Standing w widths tokens →
      Expr.Settled w (widths.headD 0) (.block body.toBlock) ∧ Standing w widths rest
  | _, _, _, _, .block hskip hindent hcontents hrest, h => by
    have hfirst := h.dropWhile
    rw [hskip] at hfirst
    obtain ⟨hdeeper, hlaid⟩ := (laid_indent hindent).1 hfirst.laid
    obtain ⟨hall, hmiddle⟩ := Statements.settles hcontents ⟨hfirst.proper.tail, hlaid⟩
    obtain ⟨_, hend⟩ := hcontents.exists_stop
    refine ⟨.block (.inl hdeeper) (fun statement hmem => (hall statement hmem).1)
      fun statement hmem => (hall statement hmem).2, ?_⟩
    rw [hrest]
    exact hmiddle.endsBlock hend
  | _, _, _, _, .single hexpr, h => by
    obtain ⟨hsettles, hline⟩ := hexpr.settles h
    exact ⟨Expr.settled_toBlock hexpr.kind_ne hsettles.settled hline, hsettles.standing⟩

theorem Statements.settles : ∀ {tokens rest : List Token} {contents : List Expr}
    {widths : List Nat}, Statements file tokens contents rest → Standing w widths tokens →
      (∀ statement ∈ contents, w statement.origin.line = widths.headD 0 ∧
        statement.Settled w (widths.headD 0)) ∧ Standing w widths rest
  | _, _, _, _, .stop hend, h => ⟨by simp, hend.1 ▸ h.dropWhile⟩
  | _, _, _, _, .more hexpr hrest, h => by
    obtain ⟨hsettles, hline⟩ := hexpr.settles h
    obtain ⟨hall, hstanding⟩ := Statements.settles hrest hsettles.standing
    exact ⟨List.forall_mem_cons.2 ⟨⟨hline, hsettles.settled⟩, hall⟩, hstanding⟩

end

theorem Program.settles {tokens rest : List Token} {contents : List Expr}
    (h : Program file tokens contents rest) (hstanding : Standing w widths tokens) :
    ∀ statement ∈ contents, w statement.origin.line = widths.headD 0 ∧
      statement.Settled w (widths.headD 0) := by
  induction h with
  | stop => simp
  | more hexpr _ ih =>
    obtain ⟨hsettles, hline⟩ := hexpr.settles hstanding
    exact List.forall_mem_cons.2 ⟨⟨hline, hsettles.settled⟩, ih hsettles.standing⟩

end Phrase

open Phrase

/-- The tokens of a text before the end token are laid below no block but the text itself. -/
theorem laid_of_tokenize {source : String} {file : Option String} {tokens : List Token}
    {last : Token} (h : (tokenize source file).result = .ok (tokens ++ [last])) :
    Laid (Text.indentation source) [0] tokens := by
  obtain ⟨others, heq, hlaid⟩ := Scanner.laid_stream (Scanner.ofText source file)
    (Scanner.placed_ofText source file) (by simp [Scanner.PendingBreaks, Scanner.ofText])
  have htokens : tokens = others := (tokens_of_tokenize h).trans heq
  exact htokens ▸ hlaid

/-- The blocks of a tree are indented by the widths `w` of its lines. -/
structure Block.FollowsIndentation (w : Nat → Nat) (block : Block Expr) : Prop where
  /-- The statements of one block are indented alike. -/
  aligned : ∀ body, Expr.Within (.block body) (.block block) →
    ∀ first ∈ body.contents, ∀ second ∈ body.contents,
      w first.origin.line = w second.origin.line
  /-- The statements of the text itself are not indented. -/
  flush : ∀ statement ∈ block.contents, w statement.origin.line = 0
  /-- A block of two statements or more is indented further than each statement around it. -/
  deeper : ∀ outer, Expr.Within (.block outer) (.block block) → ∀ statement ∈ outer.contents,
    ∀ body, Expr.Within (.block body) statement → 2 ≤ body.contents.length →
      ∀ inner ∈ body.contents, w statement.origin.line < w inner.origin.line

/-- The tree of an accepted text follows the indentation of its lines. -/
theorem followsIndentation_of_parse {source : String} {file : Option String} {block : Block Expr}
    (h : (parse source file).result = .ok block) :
    block.FollowsIndentation (Text.indentation source) := by
  obtain ⟨tokens, last, htokens, -, hprogram⟩ := parse_eq_ok_iff.1 h
  have hproper : Proper tokens := fun token hmem => ((inView_of_tokenize htokens).1 token hmem).proper
  have hall := hprogram.settles ⟨hproper, laid_of_tokenize htokens⟩
  have hlines : ∀ statement ∈ block.contents,
      Text.indentation source statement.origin.line = 0 := fun statement hmem =>
    (hall statement hmem).1
  -- The text itself is no wider than a block at its own level, whatever its length.
  have hwithin {body : Block Expr} (hin : Expr.Within (.block body) (.block block)) :
      ∃ level, (∀ statement ∈ body.contents,
          Text.indentation source statement.origin.line = level) ∧
        ∀ statement ∈ body.contents, statement.Settled (Text.indentation source) level := by
    cases hin with
    | refl => exact ⟨0, hlines, fun statement hmem => (hall statement hmem).2⟩
    | child hchild hin =>
      obtain ⟨_, -, hsettled⟩ := (hall _ hchild).2.within hin
      cases hsettled with
      | node hkind => exact absurd rfl hkind
      | block _ hlines hstatements => exact ⟨_, hlines, hstatements⟩
  refine ⟨fun body hin first hfirst second hsecond => ?_, hlines,
    fun outer hin statement hmem body hbody hlength inner hinner => ?_⟩
  · obtain ⟨level, hlevel, -⟩ := hwithin hin
    rw [hlevel first hfirst, hlevel second hsecond]
  · obtain ⟨level, hlevel, hstatements⟩ := hwithin hin
    obtain ⟨width, hle, hsettled⟩ := (hstatements statement hmem).within hbody
    rw [hlevel statement hmem]
    cases hsettled with
    | node hkind => exact absurd rfl hkind
    | block hdeeper hlines _ =>
      rw [hlines inner hinner]
      omega

theorem followsIndentation_of_parse_nested :
    ∃ block, (parse "fn f\n  if a\n    b\n    c\n  d\ne" none).result = .ok block ∧
      block.FollowsIndentation (Text.indentation "fn f\n  if a\n    b\n    c\n  d\ne") := by
  obtain ⟨block, hblock⟩ := exists_of_isOk (by decide +kernel :
    (parse "fn f\n  if a\n    b\n    c\n  d\ne" none).result.isOk = true)
  exact ⟨block, hblock, followsIndentation_of_parse hblock⟩

end Offside
