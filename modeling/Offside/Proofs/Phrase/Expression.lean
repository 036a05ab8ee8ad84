import Offside.Grammar.Standard
import Offside.Proofs.Expr.Children
import Offside.Proofs.Phrase.Type

/-!
# The phrases of expressions

`Phrase.Expression` says which tokens spell an expression where the parser reads one above a floor,
and `Phrase.Program` which tokens spell a whole text. A phrase is read off the grammar without its
parser: what starts an expression (`Phrase.Start`), what extends one to the right
(`Phrase.Extension`), and what stands for a body (`Phrase.Body`). All are relations on lists of
tokens, so that facts about programs are inductions over them.
-/

namespace Offside

/-- The binary operators, each with the power of its rule. -/
def Grammar.operatorPowers : List (String × Power) :=
  [("+", .additive), ("-", .additive), ("*", .multiplicative), ("/", .multiplicative),
    ("%", .modulo), ("&&", .logicalAnd), ("||", .logicalOr), ("<", .relational),
    ("<=", .relational), (">", .relational), (">=", .relational), ("==", .equality),
    ("!=", .equality)]

/-- The power of a binary operator. -/
def Token.binaryPower? (token : Token) : Option Power :=
  if token.kind = .operator then Grammar.operatorPowers.lookup token.value else none

/-- The power with which a token binds the expression on its left, the lowest for most tokens. -/
def Token.power (token : Token) : Power :=
  match token.binaryPower? with
  | some power => power
  | none =>
    if token.value = "=" then .assignment
    else if token.value = "->" then .call
    else .lowest

/-- The literal or the name that a token is on its own. -/
def Token.literal? (token : Token) : Option Expr :=
  match token.kind with
  | .keyword =>
    if token.value = "true" then some (.boolLit {} true)
    else if token.value = "false" then some (.boolLit {} false)
    else none
  | .integer => (Text.int64OfText? token.value).map (.intLit {})
  | .float => (Binary64.ofText? token.value).map (.floatLit {})
  | .string => some (.stringLit {} (Grammar.unquoted token.value))
  | .identifier => some (.identifier {} token.value)
  | _ => none

/-- Literals and names have nothing below them. -/
theorem Token.leaf_of_literal {token : Token} {expr : Expr} (h : token.literal? = some expr) :
    expr.kind ≠ .block ∧ expr.children = [] := by
  simp only [Token.literal?] at h
  split at h
  · split at h
    · cases h
      simp [Expr.kind, Expr.children]
    · split at h <;> cases h
      simp [Expr.kind, Expr.children]
  · obtain ⟨value, -, rfl⟩ := Option.map_eq_some_iff.1 h
    simp [Expr.kind, Expr.children]
  · obtain ⟨value, -, rfl⟩ := Option.map_eq_some_iff.1 h
    simp [Expr.kind, Expr.children]
  · cases h
    simp [Expr.kind, Expr.children]
  · cases h
    simp [Expr.kind, Expr.children]
  · cases h

/-- The arguments that an expression before an arrow stands for. -/
def Expr.callArguments : Expr → List Expr
  | arguments _ args => args
  | single => [single]

theorem Expr.forall_callArguments {p : Expr → Prop} {expr : Expr}
    (hlist : ∀ child ∈ expr.children, p child) (hsingle : expr.kind ≠ .arguments → p expr) :
    ∀ arg ∈ expr.callArguments, p arg := by
  cases expr with
  | arguments => exact hlist
  | _ => exact List.forall_mem_singleton.2 (hsingle nofun)

namespace Phrase

/-- The tokens past a newline token, if there is one. -/
def pastNewline : List Token → List Token
  | [] => []
  | token :: tokens => if token.isNewline then tokens else token :: tokens

theorem pastNewline_eq_self {tokens : List Token} (h : Ahead (¬ ·.isNewline = true) tokens) :
    pastNewline tokens = tokens := by
  cases tokens with
  | nil => rfl
  | cons token tokens => exact if_neg (ahead_cons.1 h)

/-- The name of a module. -/
def ModuleName : Phrase String := fun tokens name rest =>
  ∃ token : Token, tokens = token :: rest ∧ token.kind = .constant ∧ name = token.value

/-- A module in the path of a `use` declaration, or several in braces. -/
inductive Segment : Phrase UseSegment
  | module {name : Token} {rest : List Token} (hname : name.kind = .constant) :
    Segment (name :: rest) (.module name.value) rest
  | alternatives {brace : Token} {tokens rest : List Token} {names : List String}
    (hbrace : brace.value = "\x7b") (hnames : Items "\x7d" ModuleName tokens names rest) :
    Segment (brace :: tokens) (.alternatives names) rest

/-- A step of the path of a `use` declaration. -/
inductive UseStep : Phrase UseSegment
  | intro {colons : Token} {tokens rest : List Token} {segment : UseSegment}
    (hcolons : colons.value = "::") (hsegment : Segment tokens segment rest) :
    UseStep (colons :: tokens) segment rest

/-- What follows the first name of a scoped reference: more modules, and the name of a function. -/
inductive Scope : Phrase (List String × String)
  | name {colons name : Token} {rest : List Token} (hcolons : colons.value = "::")
    (hname : name.kind = .identifier) : Scope (colons :: name :: rest) ([], name.value) rest
  | module {colons module : Token} {tokens rest : List Token} {modules : List String} {name : String}
    (hcolons : colons.value = "::") (hmodule : module.kind = .constant)
    (hrest : Scope tokens (modules, name) rest) :
    Scope (colons :: module :: tokens) (module.value :: modules, name) rest

/-- A parameter of a function. -/
inductive Param : Phrase Parameter
  | intro {name colon : Token} {tokens rest : List Token} {type : TypeExpr}
    (hname : name.kind = .identifier) (hcolon : colon.value = ":")
    (htype : TypeTerm tokens type rest) :
    Param (name :: colon :: tokens) { name := name.value, type } rest

/-- The parameters of a function. -/
inductive Params : Phrase (List Parameter)
  | single {tokens rest : List Token} {param : Parameter} (hparam : Param tokens param rest) :
    Params tokens [param] rest
  | list {token : Token} {tokens rest : List Token} {params : List Parameter}
    (hopen : token.kind = .leftParen) (hparams : Items ")" Param tokens params rest) :
    Params (token :: tokens) params rest
  | none {tokens : List Token}
    (h : Ahead (fun token => token.kind ≠ .identifier ∧ token.kind ≠ .leftParen) tokens) :
    Params tokens [] tokens

/-- The end of the statements of a block. -/
def EndsBlock (tokens rest : List Token) : Prop :=
  rest = tokens.dropWhile Token.isNewline ∧ Ahead (·.kind = .outdent) rest

section

variable (file : String)

mutual

/-- An expression above a floor. It is stamped with the line of its first token. -/
inductive Expression : Power → Phrase Expr
  | intro {floor : Power} {tokens others middle rest : List Token} {token : Token}
    {start whole : Expr} (hskip : tokens.dropWhile Token.isNewline = token :: others)
    (hstart : Start (token :: others) start middle)
    (hextend : Extension floor start middle whole rest) :
    Expression floor tokens (whole.stamp { file, line := token.line }) rest

/-- What starts an expression. -/
inductive Start : Phrase Expr
  | literal {token : Token} {rest : List Token} {expr : Expr} (h : token.literal? = some expr) :
    Start (token :: rest) expr rest
  | reference {token : Token} {tokens rest : List Token} {modules : List String} {name : String}
    (hkind : token.kind = .constant) (hscope : Scope tokens (modules, name) rest) :
    Start (token :: tokens) (.reference {} (token.value :: modules) name) rest
  | unit {token close : Token} {rest : List Token} (hopen : token.kind = .leftParen)
    (hclose : close.value = ")") : Start (token :: close :: rest) (.arguments {} []) rest
  | group {token close : Token} {tokens rest : List Token} {expr : Expr}
    (hopen : token.kind = .leftParen) (hexpr : Expression .lowest tokens expr (close :: rest))
    (hclose : close.value = ")") : Start (token :: tokens) expr rest
  | arguments {token : Token} {tokens middle rest : List Token} {first second : Expr}
    {others : List Expr} (hopen : token.kind = .leftParen)
    (hfirst : Expression .lowest tokens first middle)
    (hothers : Arguments middle (second :: others) rest) :
    Start (token :: tokens) (.arguments {} (first :: second :: others)) rest
  | moduleDef {token name : Token} {tokens rest : List Token} {body : Expr}
    (hmodule : token.isKeyword "module" = true) (hname : name.kind = .constant)
    (hbody : Body tokens body rest) :
    Start (token :: name :: tokens) (.moduleDef {} name.value body.toBlock) rest
  | useDef {token name : Token} {tokens rest : List Token} {path : List UseSegment}
    (huse : token.isKeyword "use" = true) (hname : name.kind = .constant)
    (hpath : Many UseStep (Before (·.value ≠ "::")) tokens path rest) :
    Start (token :: name :: tokens) (.useDef {} (.module name.value :: path)) rest
  | functionDef {token name : Token} {tokens tokens₁ tokens₂ rest : List Token}
    {params : List Parameter} {result : Option TypeExpr} {body : Expr}
    (hfn : token.isKeyword "fn" = true) (hname : name.kind = .identifier)
    (hparams : Params tokens params tokens₁) (hresult : Codomain tokens₁ result tokens₂)
    (hbody : Body tokens₂ body rest) :
    Start (token :: name :: tokens) (.functionDef {} name.value params result body.toBlock) rest
  | ifElse {token next : Token} {tokens tokens₁ tokens₂ tokens₃ rest : List Token}
    {condition whenTrue whenFalse : Expr} (hif : token.isKeyword "if" = true)
    (hcondition : Expression .lowest tokens condition tokens₁)
    (htrue : Body tokens₁ whenTrue tokens₂)
    (hskip : tokens₂.dropWhile Token.isNewline = next :: tokens₃)
    (helse : next.isKeyword "else" = true) (hfalse : Body tokens₃ whenFalse rest) :
    Start (token :: tokens) (.conditional {} condition whenTrue.toBlock whenFalse.toBlock) rest
  | ifOnly {token : Token} {tokens tokens₁ tokens₂ rest : List Token} {condition whenTrue : Expr}
    (hif : token.isKeyword "if" = true)
    (hcondition : Expression .lowest tokens condition tokens₁)
    (htrue : Body tokens₁ whenTrue tokens₂) (hrest : rest = tokens₂.dropWhile Token.isNewline)
    (helse : Ahead (¬ ·.isKeyword "else" = true) rest) :
    Start (token :: tokens) (.conditional {} condition whenTrue.toBlock {}) rest

/-- What extends an expression on its left above a floor, as far as it goes. -/
inductive Extension : Power → Expr → Phrase Expr
  | stop {floor : Power} {left : Expr} {tokens : List Token}
    (h : Ahead (¬ floor < ·.power) tokens) : Extension floor left tokens left tokens
  | binary {floor power : Power} {left right whole : Expr} {token : Token}
    {tokens middle rest : List Token} (hpower : token.binaryPower? = some power)
    (hfloor : floor < power) (hright : Expression power tokens right middle)
    (hrest : Extension floor (.binary {} left token.value right) middle whole rest) :
    Extension floor left (token :: tokens) whole rest
  | assign {floor : Power} {left value whole : Expr} {token : Token}
    {tokens middle rest : List Token} (hequals : token.value = "=")
    (hfloor : floor < .assignment) (hvalue : Expression .lowest tokens value middle)
    (hrest : Extension floor (.assign {} left value) middle whole rest) :
    Extension floor left (token :: tokens) whole rest
  | call {floor : Power} {left target whole : Expr} {token : Token}
    {tokens middle rest : List Token} (harrow : token.value = "->") (hfloor : floor < .call)
    (htarget : Expression .call tokens target middle)
    (hrest : Extension floor (.call {} target left.callArguments) middle whole rest) :
    Extension floor left (token :: tokens) whole rest

/-- The arguments after the first, from the comma before them up to the closing parenthesis. -/
inductive Arguments : Phrase (List Expr)
  | close {token : Token} {rest : List Token} (hclose : token.value = ")") :
    Arguments (token :: rest) [] rest
  | next {token : Token} {tokens middle rest : List Token} {arg : Expr} {others : List Expr}
    (hcomma : token.value = ",") (harg : Expression .lowest tokens arg middle)
    (hothers : Arguments middle others rest) : Arguments (token :: tokens) (arg :: others) rest

/-- A body: an indented block, with the newline token after it, or a single expression. -/
inductive Body : Phrase Expr
  | block {tokens others middle rest : List Token} {token : Token} {contents : List Expr}
    (hskip : tokens.dropWhile Token.isNewline = token :: others) (hindent : token.kind = .indent)
    (hcontents : Many (Expression .lowest) EndsBlock others contents middle)
    (hrest : rest = pastNewline middle.tail) : Body tokens (.block { contents }) rest
  | single {tokens rest : List Token} {expr : Expr} (hexpr : Expression .lowest tokens expr rest) :
    Body tokens expr rest

end

/-- The statements of a block, up to the token that ends it. -/
abbrev Statements : Phrase (List Expr) :=
  Many (Expression file .lowest) EndsBlock

/-- The statements of a text. -/
abbrev Program : Phrase (List Expr) :=
  Many (Expression file .lowest) fun tokens rest => tokens.dropWhile Token.isNewline = rest ∧ rest = []

end

theorem kind_of_binaryPower? {token : Token} {power : Power} (h : token.binaryPower? = some power) :
    token.kind = .operator := by
  unfold Token.binaryPower? at h
  split at h
  · assumption
  · cases h

theorem mem_of_binaryPower? {token : Token} {power : Power} (h : token.binaryPower? = some power) :
    (token.value, power) ∈ Grammar.operatorPowers := by
  unfold Token.binaryPower? at h
  split at h
  · obtain ⟨earlier, later, hrows, -⟩ := List.lookup_eq_some_iff.1 h
    simp [hrows]
  · cases h

/-! ## Phrases take tokens -/

theorem pastNewline_suffix (tokens : List Token) : pastNewline tokens <:+ tokens := by
  cases tokens with
  | nil => exact List.suffix_rfl
  | cons token tokens =>
    rw [pastNewline]
    split
    · exact List.suffix_cons _ _
    · exact List.suffix_rfl

theorem EndsBlock.suffix {tokens rest : List Token} (h : EndsBlock tokens rest) : rest <:+ tokens :=
  h.1 ▸ List.dropWhile_suffix _

theorem Items.takes {α : Type} {closing : String} {item : Phrase α} {tokens rest : List Token}
    {found : List α} (hitem : ∀ tokens a rest, item tokens a rest → Takes tokens rest)
    (h : Items closing item tokens found rest) : Takes tokens rest := by
  induction h with
  | nil => exact .of_suffix List.suffix_rfl
  | last _ h _ => exact (hitem _ _ _ h).trans (List.suffix_cons _ _)
  | more _ h _ _ ih => exact (hitem _ _ _ h).trans (ih.suffix.trans (List.suffix_cons _ _))

theorem ModuleName.takes {tokens rest : List Token} {name : String}
    (h : ModuleName tokens name rest) : Takes tokens rest := by
  obtain ⟨token, rfl, -⟩ := h
  exact .of_suffix List.suffix_rfl

theorem Segment.takes {tokens rest : List Token} {segment : UseSegment}
    (h : Segment tokens segment rest) : Takes tokens rest := by
  cases h with
  | module => exact .of_suffix List.suffix_rfl
  | alternatives _ hnames => exact .of_suffix (hnames.takes fun _ _ _ => ModuleName.takes).suffix

theorem UseStep.takes {tokens rest : List Token} {segment : UseSegment}
    (h : UseStep tokens segment rest) : Takes tokens rest := by
  obtain ⟨-, hsegment⟩ := h
  exact .of_suffix hsegment.takes.suffix

theorem UsePath.suffix {tokens rest : List Token} {path : List UseSegment}
    (h : Many UseStep (Before (·.value ≠ "::")) tokens path rest) : rest <:+ tokens := by
  induction h with
  | stop h => exact h.2 ▸ List.suffix_rfl
  | more h _ ih => exact ih.trans h.takes.suffix

theorem Scope.takes {tokens rest : List Token} {path : List String × String}
    (h : Scope tokens path rest) : Takes tokens rest := by
  induction h with
  | name => exact .of_suffix (List.suffix_cons _ _)
  | module _ _ _ ih => exact .of_suffix (ih.suffix.trans (List.suffix_cons _ _))

theorem Param.takes {tokens rest : List Token} {param : Parameter} (h : Param tokens param rest) :
    Takes tokens rest := by
  cases h with
  | intro _ _ htype => exact .of_suffix (htype.takes.suffix.trans (List.suffix_cons _ _))

theorem Params.suffix {tokens rest : List Token} {params : List Parameter}
    (h : Params tokens params rest) : rest <:+ tokens := by
  cases h with
  | single h => exact h.takes.suffix
  | list _ h => exact (h.takes fun _ _ _ => Param.takes).suffix.trans (List.suffix_cons _ _)
  | none => exact List.suffix_rfl

variable {file : String}

/-- A phrase past newline tokens. -/
theorem Takes.of_skip {tokens others rest : List Token} {token : Token}
    (hskip : tokens.dropWhile Token.isNewline = token :: others) (h : Takes (token :: others) rest) :
    Takes tokens rest := by
  have hsuffix : token :: others <:+ tokens := hskip ▸ List.dropWhile_suffix _
  obtain ⟨skipped, rfl⟩ := hsuffix
  refine ⟨by simp, ?_⟩
  cases skipped with
  | nil => exact h.2
  | cons _ skipped => exact h.suffix.trans (List.suffix_append _ _)

mutual

theorem Expression.takes : ∀ {floor : Power} {tokens rest : List Token} {expr : Expr},
    Expression file floor tokens expr rest → Takes tokens rest
  | _, _, _, _, .intro hskip hstart hextend =>
    .of_skip hskip (hstart.takes.trans hextend.suffix)

theorem Start.takes : ∀ {tokens rest : List Token} {expr : Expr},
    Start file tokens expr rest → Takes tokens rest
  | _, _, _, .literal _ => .of_suffix List.suffix_rfl
  | _, _, _, .reference _ hscope => .of_suffix hscope.takes.suffix
  | _, _, _, .unit _ _ => .of_suffix (List.suffix_cons _ _)
  | _, _, _, .group _ hexpr _ => .of_suffix ((List.suffix_cons _ _).trans hexpr.takes.suffix)
  | _, _, _, .arguments _ hfirst hothers =>
    .of_suffix (hothers.takes.suffix.trans hfirst.takes.suffix)
  | _, _, _, .moduleDef _ _ hbody => .of_suffix (hbody.takes.suffix.trans (List.suffix_cons _ _))
  | _, _, _, .useDef _ _ hpath => .of_suffix ((UsePath.suffix hpath).trans (List.suffix_cons _ _))
  | _, _, _, .functionDef _ _ hparams hresult hbody =>
    .of_suffix (hbody.takes.suffix.trans
      (hresult.suffix.trans (hparams.suffix.trans (List.suffix_cons _ _))))
  | _, _, _, .ifElse _ hcondition htrue hskip _ hfalse =>
    have hnext := List.IsSuffix.trans (List.suffix_cons _ _) (hskip ▸ List.dropWhile_suffix _)
    .of_suffix (hfalse.takes.suffix.trans
      (hnext.trans (htrue.takes.suffix.trans hcondition.takes.suffix)))
  | _, _, _, .ifOnly _ hcondition htrue hrest _ =>
    .of_suffix (hrest ▸ (List.dropWhile_suffix _).trans
      (htrue.takes.suffix.trans hcondition.takes.suffix))

theorem Extension.suffix : ∀ {floor : Power} {left whole : Expr} {tokens rest : List Token},
    Extension file floor left tokens whole rest → rest <:+ tokens
  | _, _, _, _, _, .stop _ => List.suffix_rfl
  | _, _, _, _, _, .binary _ _ hright hrest =>
    hrest.suffix.trans (hright.takes.suffix.trans (List.suffix_cons _ _))
  | _, _, _, _, _, .assign _ _ hvalue hrest =>
    hrest.suffix.trans (hvalue.takes.suffix.trans (List.suffix_cons _ _))
  | _, _, _, _, _, .call _ _ htarget hrest =>
    hrest.suffix.trans (htarget.takes.suffix.trans (List.suffix_cons _ _))

theorem Arguments.takes : ∀ {tokens rest : List Token} {args : List Expr},
    Arguments file tokens args rest → Takes tokens rest
  | _, _, _, .close _ => .of_suffix List.suffix_rfl
  | _, _, _, .next _ harg hothers => .of_suffix (hothers.takes.suffix.trans harg.takes.suffix)

theorem Body.takes : ∀ {tokens rest : List Token} {body : Expr},
    Body file tokens body rest → Takes tokens rest
  | _, _, _, .block hskip _ hcontents hrest =>
    .of_skip hskip (.of_suffix (hrest ▸ (pastNewline_suffix _).trans
      ((List.tail_suffix _).trans (Statements.suffix hcontents))))
  | _, _, _, .single hexpr => hexpr.takes

theorem Statements.suffix : ∀ {tokens rest : List Token} {contents : List Expr},
    Statements file tokens contents rest → rest <:+ tokens
  | _, _, _, .stop hend => hend.suffix
  | _, _, _, .more hexpr hrest => (Statements.suffix hrest).trans hexpr.takes.suffix

end

/-! ## Expressions are not blocks -/

mutual

theorem Expression.kind_ne : ∀ {floor : Power} {tokens rest : List Token} {expr : Expr},
    Expression file floor tokens expr rest → expr.kind ≠ .block
  | _, _, _, _, .intro _ hstart hextend => by
    rw [Expr.kind_stamp]
    exact hextend.kind_ne hstart.kind_ne

theorem Start.kind_ne : ∀ {tokens rest : List Token} {expr : Expr},
    Start file tokens expr rest → expr.kind ≠ .block
  | _, _, _, .literal h => (Token.leaf_of_literal h).1
  | _, _, _, .group _ hexpr _ => hexpr.kind_ne
  | _, _, _, .reference .. | _, _, _, .unit .. | _, _, _, .arguments .. | _, _, _, .moduleDef ..
  | _, _, _, .useDef .. | _, _, _, .functionDef .. | _, _, _, .ifElse .. | _, _, _, .ifOnly .. => by
    simp [Expr.kind]

theorem Extension.kind_ne : ∀ {floor : Power} {left whole : Expr} {tokens rest : List Token},
    Extension file floor left tokens whole rest → left.kind ≠ .block → whole.kind ≠ .block
  | _, _, _, _, _, .stop _, h => h
  | _, _, _, _, _, .binary _ _ _ hrest, _ => hrest.kind_ne (by simp [Expr.kind])
  | _, _, _, _, _, .assign _ _ _ hrest, _ => hrest.kind_ne (by simp [Expr.kind])
  | _, _, _, _, _, .call _ _ _ hrest, _ => hrest.kind_ne (by simp [Expr.kind])

end

end Phrase

end Offside
