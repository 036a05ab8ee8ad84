import Offside.Proofs.Phrase.Expression

/-!
# What the rules for operands and operators parse

One lemma for each rule, given what the parser for the expressions inside it parses
(`ExprParser.Parses`). The rules of `Offside.Grammar.Operand` come after a token that they do not
look at: the grammar has seen it.
-/

namespace Offside

open ParseM (Parses)
open Phrase

/-- Where an expression has to be, the parser reads it, on fewer than `n` tokens. -/
def ExprParser.Parses (file : String) (last : Token) (n : Nat) (inner : ExprParser) : Prop :=
  ∀ floor cause, ParseM.Parses file last n (do
    match ← inner floor with
    | some expr => return expr
    | none => ParseM.fail cause) (Expression file floor)

variable {file : String} {last : Token} {n : Nat} {inner : ExprParser}

theorem ExprParser.Parses.required (h : inner.Parses file last n) (floor : Power) :
    ParseM.Parses file last n (inner.required floor) (Expression file floor) :=
  h floor .missingExpression

namespace Grammar

/-! ## Literals and names -/

/-- What the rule for literals makes of a token. It takes every keyword for a truth value. -/
def literalOf (token : Token) : Option Expr :=
  if token.kind = .keyword then some (.boolLit {} (token.value == "true")) else token.literal?

theorem literalOf_eq {token : Token}
    (h : token.kind = .keyword → token.value = "true" ∨ token.value = "false") :
    literalOf token = token.literal? := by
  unfold literalOf
  split
  · rename_i hkind
    rcases h hkind with hvalue | hvalue <;> simp [Token.literal?, hkind, hvalue]
  · rfl

/-- The fault for a token that the rule for literals has no value for. -/
def literalFault (token : Token) : Fault.Cause :=
  if token.kind = .integer ∨ token.kind = .float then .invalidNumber token.value
  else .missingExpression

theorem primary_eq :
    primary = (do
      let token ← ParseM.consume
      match literalOf token with
      | some expr => return expr
      | none => ParseM.failAt token (literalFault token)) := by
  refine bind_congr fun token => ?_
  cases hkind : token.kind <;> simp [literalOf, Token.literal?, literalFault, hkind]
  · cases Binary64.ofText? token.value <;> rfl
  · cases Text.int64OfText? token.value <;> rfl

theorem parses_primary :
    Parses file last n primary fun tokens expr rest =>
      literalOf (tokens.headD last) = some expr ∧ rest = tokens.tail := by
  rw [primary_eq]
  refine (Parses.bind (q := fun token tokens expr rest => literalOf token = some expr ∧ rest = tokens)
    .consume fun token => ?_).congr fun _ tokens _ expr rest => ?_
  · cases literalOf token with
    | some expr => exact (Parses.pure expr).congr fun _ _ _ _ _ => by simp [eq_comm]
    | none => exact (Parses.failAt _ _).congr fun _ _ _ _ _ => by simp
  · constructor
    · intro h
      obtain ⟨_, _, ⟨rfl, rfl⟩, hliteral, rfl⟩ := h
      exact ⟨hliteral, rfl⟩
    · intro h
      obtain ⟨hliteral, rfl⟩ := h
      exact ⟨_, _, ⟨rfl, rfl⟩, hliteral, rfl⟩

/-! ## Scoped references -/

/-- One step of a scoped reference: another module, or the function at the end. -/
inductive ScopeRound (modules : Array String) : Phrase (Round (Array String) Expr)
  | again {colons module : Token} {rest : List Token} (hcolons : colons.value = "::")
    (hmodule : module.kind = .constant) :
    ScopeRound modules (colons :: module :: rest) (.again (modules.push module.value)) rest
  | done {colons name : Token} {rest : List Token} (hcolons : colons.value = "::")
    (hname : name.kind = .identifier) :
    ScopeRound modules (colons :: name :: rest)
      (.done (.reference {} modules.toList name.value)) rest

theorem loops_scopeRound_iff {modules : Array String} {tokens rest : List Token} {expr : Expr} :
    ParseM.Loops ScopeRound modules tokens expr rest ↔ ∃ path name,
      Scope tokens (path, name) rest ∧ expr = .reference {} (modules.toList ++ path) name := by
  constructor
  · intro h
    induction h with
    | done h =>
      obtain ⟨hcolons, hname⟩ | ⟨hcolons, hname⟩ := h
      exact ⟨[], _, .name hcolons hname, by simp⟩
    | again h _ ih =>
      obtain ⟨path, name, hscope, rfl⟩ := ih
      obtain ⟨hcolons, hmodule⟩ | ⟨hcolons, hmodule⟩ := h
      exact ⟨_ :: path, name, .module hcolons hmodule hscope, by simp⟩
  · intro h
    obtain ⟨path, name, hscope, rfl⟩ := h
    generalize hpath : (path, name) = found at hscope
    induction hscope generalizing path modules with
    | name hcolons hname =>
      cases hpath
      rw [List.append_nil]
      exact .done (.done hcolons hname)
    | module hcolons hmodule _ ih =>
      cases hpath
      exact .again (.again hcolons hmodule) (by simpa using @ih (modules.push _) _ rfl)

theorem parses_scopeRound (modules : Array String) :
    Parses file last n (scopeRound modules) (ScopeRound modules) := by
  refine (Parses.ite (p := (·.value = "::")) (fun _ => beq_iff_eq)
    (fun hlast => by simp [hlast.value_eq])
    (.bind .advance fun _ => .ite (p := (·.kind = .constant)) (fun _ => beq_iff_eq)
      (fun hlast => by simp [hlast.kind_eq]) (.bind .consume fun module => .pure _)
      (.bind (.takeKind .identifier (by decide)) fun name => .pure _))
    (.fail _)).congr fun _ tokens _ round rest => ?_
  constructor
  · intro h
    obtain ⟨⟨colons, others, rfl, hcolons⟩, -, _, rfl,
      ⟨⟨module, others, rfl, hmodule⟩, _, _, ⟨rfl, rfl⟩, rfl, rfl⟩
      | ⟨-, name, _, ⟨rfl, hname⟩, rfl, rfl⟩⟩ | ⟨-, h⟩ := h
    · exact .again hcolons hmodule
    · exact .done hcolons hname
    · exact h.elim
  · intro h
    obtain ⟨hcolons, hmodule⟩ | ⟨hcolons, hname⟩ := h
    · exact .inl ⟨starts_cons.2 hcolons, (), _, rfl,
        .inl ⟨starts_cons.2 hmodule, _, _, ⟨rfl, rfl⟩, rfl, rfl⟩⟩
    · exact .inl ⟨starts_cons.2 hcolons, (), _, rfl,
        .inr ⟨ahead_cons.2 (by simp [hname]), _, _, ⟨rfl, hname⟩, rfl, rfl⟩⟩

theorem length_lt_of_scopeRound {modules next : Array String} {tokens rest : List Token}
    (h : ScopeRound modules tokens (.again next) rest) : rest.length < tokens.length := by
  cases h
  simp only [List.length_cons]
  omega

theorem parses_scopedReference :
    Parses file last n scopedReference fun tokens expr rest => ∃ path name,
      Scope tokens.tail (path, name) rest ∧
        expr = .reference {} ((tokens.headD last).value :: path) name := by
  refine (Parses.bind .consume fun first =>
    .loop parses_scopeRound (fun _ _ _ _ => length_lt_of_scopeRound) #[first.value]).congr
    fun _ tokens _ expr rest => ?_
  constructor
  · intro h
    obtain ⟨_, _, ⟨rfl, rfl⟩, h⟩ := h
    obtain ⟨path, name, hscope, rfl⟩ := loops_scopeRound_iff.1 h
    exact ⟨path, name, hscope, by simp⟩
  · intro h
    obtain ⟨path, name, hscope, rfl⟩ := h
    exact ⟨_, _, ⟨rfl, rfl⟩, loops_scopeRound_iff.2 ⟨path, name, hscope, by simp⟩⟩

/-! ## Parentheses -/

/-- A comma or the closing parenthesis is ahead. -/
abbrev AtDelimiter : List Token → Prop :=
  Starts (·.value ∈ [",", ")"])

/-- One more argument, and a delimiter after it. -/
def NextArgument (file : String) : Phrase Expr := fun tokens arg rest =>
  Ahead (·.value ≠ ")") tokens ∧ Expression file .lowest tokens.tail arg rest ∧ AtDelimiter rest

theorem NextArgument.length_lt {tokens rest : List Token} {arg : Expr}
    (h : NextArgument file tokens arg rest) : rest.length < tokens.length := by
  have := h.2.1.takes.length_lt
  rw [List.length_tail] at this
  omega

/-- The closing parenthesis is ahead. -/
def AtClose (tokens rest : List Token) : Prop :=
  Starts (·.value = ")") tokens ∧ rest = tokens

theorem atDelimiter_of_arguments {tokens rest : List Token} {args : List Expr}
    (h : Arguments file tokens args rest) : AtDelimiter tokens := by
  cases h with
  | close hclose => simp [AtDelimiter, hclose]
  | next hcomma => simp [AtDelimiter, hcomma]

theorem arguments_of_many {tokens rest : List Token} {args : List Expr} {token : Token}
    (h : Many (NextArgument file) AtClose tokens args (token :: rest)) (hdelimiter : AtDelimiter tokens) :
    Arguments file tokens args rest := by
  generalize hlist : token :: rest = list at h
  induction h with
  | stop h =>
    obtain ⟨hclose, rfl⟩ := h
    subst hlist
    exact .close (starts_cons.1 hclose)
  | more h _ ih =>
    obtain ⟨hopen, harg, hnext⟩ := h
    obtain ⟨comma, others, rfl, hvalue⟩ := hdelimiter
    have hcomma : comma.value = "," := by
      simpa [ahead_cons.1 hopen] using hvalue
    exact .next hcomma harg (ih hnext hlist)

theorem many_of_arguments {tokens rest : List Token} {args : List Expr}
    (h : Arguments file tokens args rest) : ∃ token : Token, token.value = ")" ∧
      Many (NextArgument file) AtClose tokens args (token :: rest) := by
  induction args generalizing tokens with
  | nil =>
    cases h with
    | close hclose => exact ⟨_, hclose, .stop ⟨starts_cons.2 hclose, rfl⟩⟩
  | cons arg others ih =>
    cases h with
    | next hcomma harg hothers =>
      obtain ⟨token, hclose, hmany⟩ := ih hothers
      refine ⟨token, hclose, .more ⟨?_, harg, atDelimiter_of_arguments hothers⟩ hmany⟩
      simp [hcomma]

theorem parses_argumentRound (h : inner.Parses file last (n + 1)) (message : String)
    (args : Array Expr) :
    Parses file last (n + 1) (argumentRound inner message args)
      (ParseM.Collects (NextArgument file) AtClose args) := by
  refine (Parses.ite (p := (·.value = ")")) (fun _ => beq_iff_eq)
    (fun hlast => by simp [hlast.value_eq]) (.pure _)
    (.bind .advance fun _ => .bind (h.required .lowest) fun next =>
      .bind (.expectDelimiter message (by decide)) fun _ => .pure _)).congr
    fun _ tokens _ round rest => ?_
  constructor
  · intro h
    obtain ⟨hclose, rfl, rfl⟩ | ⟨hopen, -, _, rfl, arg, _, harg, -, _, ⟨hdelimiter, rfl⟩, rfl, rfl⟩ := h
    · exact ⟨⟨hclose, rfl⟩, rfl⟩
    · exact ⟨arg, ⟨hopen, harg, hdelimiter⟩, rfl⟩
  · cases round with
    | again next =>
      intro h
      obtain ⟨arg, ⟨hopen, harg, hdelimiter⟩, rfl⟩ := h
      exact .inr ⟨hopen, (), _, rfl, arg, rest, harg, (), rest, ⟨hdelimiter, rfl⟩, rfl, rfl⟩
    | done out =>
      intro h
      obtain ⟨⟨hclose, rfl⟩, rfl⟩ := h
      exact .inl ⟨hclose, rfl, rfl⟩

/-- What follows an opening parenthesis: nothing, one expression, or several arguments. -/
def Grouped (file : String) : Phrase Expr := fun tokens expr rest =>
  (∃ close : Token, tokens = close :: rest ∧ close.value = ")" ∧ expr = .arguments {} []) ∨
    Ahead (·.value ≠ ")") tokens ∧ ∃ first middle others, Expression file .lowest tokens first middle ∧
      Arguments file middle others rest ∧
        expr = if others.isEmpty then first else .arguments {} (first :: others)

theorem parses_grouping (h : inner.Parses file last (n + 1)) :
    Parses file last (n + 2) (grouping inner) fun tokens expr rest =>
      Grouped file tokens.tail expr rest := by
  refine (Parses.next (.ite (p := (·.value = ")")) (fun _ => beq_iff_eq)
    (fun hlast => by simp [hlast.value_eq]) (.bind .advance fun _ => .pure (Expr.arguments {} []))
    (.bind (h.required .lowest) fun first => .bind (.expectDelimiter _ (by decide)) fun _ =>
      .ite (p := (·.value = ")")) (fun _ => beq_iff_eq) (fun hlast => by simp [hlast.value_eq])
        (.bind .advance fun _ => .pure first)
        (.bind (.collect (parses_argumentRound h _) (fun _ _ _ => NextArgument.length_lt) #[first])
          fun args =>
          .bind .advance fun _ => .pure (Expr.arguments {} args.toList))))).congr
    fun _ tokens _ expr rest => ?_
  constructor
  · intro h
    obtain ⟨⟨close, others, heq, hclose⟩, -, _, rfl, rfl, rfl⟩
      | ⟨hopen, first, middle, hfirst, -, _, ⟨hdelimiter, rfl⟩, h⟩ := h
    · exact .inl ⟨close, by simp [heq], hclose, rfl⟩
    · refine .inr ⟨hopen, first, ?_⟩
      obtain ⟨⟨close, others, rfl, hclose⟩, -, _, rfl, rfl, rfl⟩
        | ⟨hmore, _, _, ⟨args, hmany, rfl⟩, -, _, rfl, rfl, rfl⟩ := h
      · exact ⟨_, [], hfirst, .close hclose, rfl⟩
      · obtain ⟨-, ⟨close, rest, rfl, hclose⟩, rfl⟩ := hmany.exists_stop
        have hothers := arguments_of_many hmany hdelimiter
        refine ⟨_, args, hfirst, hothers, ?_⟩
        cases args with
        | nil =>
          cases hothers with
          | close hclose => exact absurd hclose (ahead_cons.1 hmore)
        | cons second others => simp
  · intro h
    obtain ⟨close, heq, hclose, rfl⟩ | ⟨hopen, first, middle, others, hfirst, hothers, rfl⟩ := h
    · exact .inl ⟨by simp [heq, hclose], (), rest, by simp [heq], rfl, rfl⟩
    · refine .inr ⟨hopen, first, middle, hfirst, (), middle,
        ⟨atDelimiter_of_arguments hothers, rfl⟩, ?_⟩
      cases hothers with
      | close hclose => exact .inl ⟨starts_cons.2 hclose, (), _, rfl, rfl, rfl⟩
      | next hcomma harg hothers =>
        obtain ⟨token, hclose, hmany⟩ := many_of_arguments (.next hcomma harg hothers)
        exact .inr ⟨by simp [hcomma], _, _, ⟨_, hmany, rfl⟩, (), _, rfl, by simp, rfl⟩

/-! ## Operators -/

theorem parses_binary (h : inner.Parses file last (n + 1)) (left : Expr) (power : Power) :
    Parses file last (n + 2) (binary inner left power) fun tokens expr rest => ∃ right,
      Expression file power tokens.tail right rest ∧
        expr = .binary {} left (tokens.headD last).value right := by
  refine (Parses.bindWithin .consume (fun operator => .bind (h.required power) fun right =>
    .pure (Expr.binary {} left operator.value right)) ?_).congr fun _ tokens _ expr rest => ?_
  · intro tokens token middle hlen _ h
    rw [h.2, List.length_tail]
    omega
  · constructor
    · intro h
      obtain ⟨_, _, ⟨rfl, rfl⟩, right, _, hright, rfl, rfl⟩ := h
      exact ⟨right, hright, rfl⟩
    · intro h
      obtain ⟨right, hright, rfl⟩ := h
      exact ⟨_, _, ⟨rfl, rfl⟩, right, _, hright, rfl, rfl⟩

theorem parses_assignment (h : inner.Parses file last (n + 1)) (target : Expr) (power : Power) :
    Parses file last (n + 2) (assignment inner target power) fun tokens expr rest => ∃ value,
      Expression file .lowest tokens.tail value rest ∧ expr = .assign {} target value := by
  refine (Parses.next (.bind (h.required .lowest) fun value => .pure (Expr.assign {} target value))).congr
    fun _ tokens _ expr rest => ?_
  constructor
  · intro h
    obtain ⟨value, _, hvalue, rfl, rfl⟩ := h
    exact ⟨value, hvalue, rfl⟩
  · intro h
    obtain ⟨value, hvalue, rfl⟩ := h
    exact ⟨value, rest, hvalue, rfl, rfl⟩

theorem call_eq (inner : ExprParser) (left : Expr) (power : Power) :
    call inner left power = (do
      ParseM.advance
      let target ← inner.required power
      return .call {} target left.callArguments) := by
  cases left <;> rfl

theorem parses_call (h : inner.Parses file last (n + 1)) (left : Expr) (power : Power) :
    Parses file last (n + 2) (call inner left power) fun tokens expr rest => ∃ target,
      Expression file power tokens.tail target rest ∧
        expr = .call {} target left.callArguments := by
  rw [call_eq]
  refine (Parses.next (.bind (h.required power) fun target =>
    .pure (Expr.call {} target left.callArguments))).congr fun _ tokens _ expr rest => ?_
  constructor
  · intro h
    obtain ⟨target, _, htarget, rfl, rfl⟩ := h
    exact ⟨target, htarget, rfl⟩
  · intro h
    obtain ⟨target, htarget, rfl⟩ := h
    exact ⟨target, rest, htarget, rfl, rfl⟩

end Grammar

end Offside
