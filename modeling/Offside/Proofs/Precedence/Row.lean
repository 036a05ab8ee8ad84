import Offside.Proofs.Indentation
import Offside.Proofs.Precedence.Tree

/-!
# Rows of operands

A row is infix tokens and operands by turns. What extends an expression above a floor takes the
operands of a row up to the first whose token binds no more strongly than the floor, and the outcome
is the tree of the expression with them (`Phrase.Row.exists_extension`). A whole row makes one
expression with the operand before it (`Phrase.Row.exists_expression`).
-/

namespace Offside

open Grammar

/-! ## Infix tokens -/

/-- The class of an infix token. -/
def Grammar.infixKind (operator : String) : Token.Kind :=
  if operator = "->" ∨ operator = "=" then .special else .operator

/-- A token that stands between operands. -/
def Token.IsInfix (token : Token) : Prop :=
  token.kind = infixKind token.value ∧ token.value ∈ infixPowers.map Prod.fst

theorem Token.cut?_of_mem_infixPowers {operator : String} (h : operator ∈ infixPowers.map Prod.fst)
    (text : List Char) : cut? (operator.toList ++ ' ' :: text) =
      some (infixKind operator, operator, ' ' :: text) := by
  have hall : ∀ operator ∈ infixPowers.map Prod.fst,
      cut? (operator.toList ++ ' ' :: text) = some (infixKind operator, operator, ' ' :: text) := by
    simp only [infixPowers, operatorPowers, List.cons_append, List.nil_append, List.map_cons,
      List.map_nil, List.forall_mem_cons]
    exact ⟨rfl, rfl, rfl, rfl, rfl, rfl, rfl, rfl, rfl, rfl, rfl, rfl, rfl, rfl, rfl, by simp⟩
  exact hall operator h

/-- An infix token is a binary operator, an arrow, or an equals sign. -/
theorem Token.IsInfix.power {token : Token} (h : token.IsInfix) :
    token.power = infixPower token.value ∧
      (token.binaryPower? = some (infixPower token.value) ∨ token.value = "->" ∨
        token.value = "=") := by
  have hall : ∀ value ∈ infixPowers.map Prod.fst,
      ({ kind := infixKind value, value, line := 0, column := 0 } : Token).power =
          infixPower value ∧
        (({ kind := infixKind value, value, line := 0, column := 0 } : Token).binaryPower? =
          some (infixPower value) ∨ value = "->" ∨ value = "=") := by
    decide +kernel
  obtain ⟨kind, value, line, column⟩ := token
  obtain ⟨hkind, hvalue⟩ := h
  dsimp only at hkind hvalue
  subst hkind
  exact hall value hvalue

theorem Grammar.infixPower_equals : infixPower "=" = .assignment := by
  decide

theorem Grammar.lowest_lt_infixPower {operator : String}
    (h : operator ∈ infixPowers.map Prod.fst) : Power.lowest < infixPower operator := by
  have hall : ∀ operator ∈ infixPowers.map Prod.fst, Power.lowest < infixPower operator := by
    decide +kernel
  exact hall operator h

/-! ## Rows of operands -/

namespace Phrase

/-- Tokens that start an expression before any others. -/
def Operates (file : String) (tokens : List Token) (value : Expr) : Prop :=
  ∀ rest, ∃ start, Start file (tokens ++ rest) start rest ∧ start.bare = value.bare

/-- Infix tokens and operands by turns, up to the tokens `rest`. -/
inductive Row (file : String) (rest : List Token) : List (String × Expr) → List Token → Prop
  | nil : Row file rest [] rest
  | cons {token : Token} {tokens others : List Token} {value : Expr}
    {links : List (String × Expr)} (htoken : token.IsInfix) (hvalue : Operates file tokens value)
    (h : Row file rest links others) :
    Row file rest ((token.value, value) :: links) (token :: (tokens ++ others))

variable {file : String} {floor : Power} {links : List (String × Expr)} {tokens rest : List Token}

/-- Whether a token binds more strongly than the floor. -/
def Above (floor : Power) (link : String × Expr) : Bool :=
  floor < infixPower link.1

theorem Row.lowest (h : Row file rest links tokens) : ∀ link ∈ links, Above .lowest link = true := by
  induction h with
  | nil => simp
  | cons htoken _ _ ih =>
    exact List.forall_mem_cons.2 ⟨decide_eq_true (lowest_lt_infixPower htoken.2), ih⟩

theorem Row.takeWhile_lowest (h : Row file rest links tokens) :
    links.takeWhile (Above .lowest) = links ∧ links.dropWhile (Above .lowest) = [] := by
  have htake : (links ++ []).takeWhile (Above .lowest) = _ := List.takeWhile_append_of_pos h.lowest
  have hdrop : (links ++ []).dropWhile (Above .lowest) = _ := List.dropWhile_append_of_pos h.lowest
  simpa using And.intro htake hdrop

/-- Operands above a floor, and those after them above a lower one. -/
theorem takeWhile_above {power : Power} (hfloor : floor ≤ power) (links : List (String × Expr)) :
    links.takeWhile (Above floor) =
        links.takeWhile (Above power) ++ (links.dropWhile (Above power)).takeWhile (Above floor) ∧
      links.dropWhile (Above floor) = (links.dropWhile (Above power)).dropWhile (Above floor) := by
  induction links with
  | nil => exact ⟨rfl, rfl⟩
  | cons link links ih =>
    by_cases hpower : Above power link = true
    · have habove : Above floor link = true := by
        refine decide_eq_true (Nat.lt_of_le_of_lt hfloor ?_)
        exact of_decide_eq_true hpower
      rw [List.takeWhile_cons_of_pos hpower, List.dropWhile_cons_of_pos hpower,
        List.takeWhile_cons_of_pos habove, List.dropWhile_cons_of_pos habove, List.cons_append, ih.1,
        ih.2]
      exact ⟨rfl, rfl⟩
    · rw [List.takeWhile_cons_of_neg hpower, List.dropWhile_cons_of_neg hpower, List.nil_append]
      exact ⟨rfl, rfl⟩

theorem above_of_mem_takeWhile {power : Power} (hfloor : floor < power)
    (links : List (String × Expr)) :
    ∀ link ∈ links.takeWhile (Above power), link.1 ≠ "=" ∧ power < infixPower link.1 := by
  intro link hlink
  have hpower : power < infixPower link.1 :=
    of_decide_eq_true (List.all_eq_true.1 List.all_takeWhile link hlink)
  refine ⟨fun hequals => ?_, hpower⟩
  rw [hequals, infixPower_equals] at hpower
  exact Nat.not_lt_zero _ (Nat.lt_of_lt_of_le hfloor (Nat.le_of_lt_succ hpower))

theorem le_of_mem_head? (power : Power) (links : List (String × Expr)) :
    ∀ link ∈ ((links.dropWhile (Above power)).takeWhile (Above floor)).head?,
      infixPower link.1 ≤ power := by
  intro link hlink
  rw [List.head?_takeWhile, Option.mem_def, Option.filter_eq_some_iff] at hlink
  have hnot := List.head?_dropWhile_not (Above power) links
  rw [hlink.1] at hnot
  exact Nat.le_of_not_lt (of_decide_eq_false hnot)

/-- What starts an expression is one with what extends it. -/
theorem Start.exists_expression {middle : List Token} {start whole : Expr}
    (h : Start file tokens start middle) (hextend : Extension file floor start middle whole rest) :
    ∃ expr, Expression file floor tokens expr rest ∧ expr.bare = whole.bare := by
  obtain ⟨token, others, rfl⟩ := List.exists_cons_of_ne_nil h.takes.1
  have hplain := plain_of_start h
  have hskip : (token :: others).dropWhile Token.isNewline = token :: others := by
    refine List.dropWhile_cons_of_neg fun hnewline => hplain ?_
    rw [beq_iff_eq.1 hnewline]
    exact List.mem_cons_self
  exact ⟨_, .intro hskip h hextend, Expr.bare_stamp _ _⟩

/-- An operand with what extends it is an expression. -/
theorem Operates.exists_expression {value : Expr} {operand others : List Token}
    {links : List (String × Expr)} {p : List Token → Prop} (h : Operates file operand value)
    (hextend : ∀ start, ∃ whole rest, Extension file floor start others whole rest ∧
      whole.bare = (Expr.tree start links).bare ∧ p rest) :
    ∃ expr rest, Expression file floor (operand ++ others) expr rest ∧
      expr.bare = (Expr.tree value links).bare ∧ p rest := by
  obtain ⟨start, hstart, hbare⟩ := h others
  obtain ⟨whole, rest, hextend, hwhole, hrest⟩ := hextend start
  obtain ⟨expr, hexpr, hsame⟩ := hstart.exists_expression hextend
  exact ⟨expr, rest, hexpr, by rw [hsame, hwhole, Expr.bare_tree_congr hbare], hrest⟩

/-- A token other than an equals sign joins the expressions on both sides. -/
theorem extension_joined {token : Token} {middle : List Token} {left right whole : Expr}
    (htoken : token.IsInfix) (hequals : token.value ≠ "=")
    (hfloor : floor < infixPower token.value)
    (hright : Expression file (infixPower token.value) tokens right middle)
    (hrest : Extension file floor (Expr.joined token.value left right) middle whole rest) :
    Extension file floor left (token :: tokens) whole rest := by
  rcases htoken.power.2 with hbinary | harrow | hequals'
  · have harrow := (value_ne_of_binaryPower? hbinary).2
    rw [Expr.joined, if_neg harrow] at hrest
    exact .binary hbinary hfloor hright hrest
  · rw [Expr.joined, if_pos harrow] at hrest
    rw [harrow] at hfloor hright
    exact .call harrow hfloor hright hrest
  · exact absurd hequals' hequals

/-- What extends an expression above a floor takes the operands up to the first whose token binds no
more strongly, and makes a tree with them. -/
theorem Row.exists_extension (h : Row file rest links tokens)
    (hrest : Ahead (¬ Power.lowest < ·.power) rest) (floor : Power) (left : Expr) :
    ∃ whole tokens', Extension file floor left tokens whole tokens' ∧
      whole.bare = (Expr.tree left (links.takeWhile (Above floor))).bare ∧
        Row file rest (links.dropWhile (Above floor)) tokens' := by
  -- The right operand takes some of the links, and the tree goes on with the others: both are fewer.
  induction hlength : links.length using Nat.strongRecOn
    generalizing links tokens floor left with
  | ind length ih =>
    subst hlength
    cases h with
    | nil =>
      have hstop : Ahead (¬ floor < ·.power) rest := fun token htoken hfloor =>
        hrest token htoken (Nat.lt_of_le_of_lt (Nat.zero_le _) hfloor)
      exact ⟨left, rest, .stop hstop, by rw [List.takeWhile_nil, Expr.tree_nil], .nil⟩
    | @cons token operand others value links htoken hvalue hrow =>
      have hpower := htoken.power.1
      by_cases hfloor : floor < infixPower token.value
      · have habove : Above floor (token.value, value) = true := decide_eq_true hfloor
        rw [List.takeWhile_cons_of_pos habove, List.dropWhile_cons_of_pos habove]
        by_cases hequals : token.value = "="
        · -- Only the lowest floor is below an equals sign, and then all operands are above it.
          obtain rfl : floor = .lowest := by
            rw [hequals, infixPower_equals] at hfloor
            cases floor <;> first | rfl | exact absurd hfloor (by decide)
          obtain ⟨htake, hdrop⟩ := hrow.takeWhile_lowest
          obtain ⟨expr, middle, hexpr, hbare, hmiddle⟩ := hvalue.exists_expression fun start =>
            ih links.length (Nat.lt_succ_self _) hrow .lowest start rfl
          rw [htake] at hbare
          rw [htake, hdrop, hequals]
          rw [hdrop] at hmiddle
          cases hmiddle
          refine ⟨_, rest, .assign hequals (by decide) hexpr (.stop hrest), ?_, .nil⟩
          rw [Expr.tree_assign_cons]
          exact Expr.bare_assign_congr rfl hbare
        · obtain ⟨right, middle, hright, hbare, hmiddle⟩ := hvalue.exists_expression fun start =>
            ih links.length (Nat.lt_succ_self _) hrow (infixPower token.value) start rfl
          have hlength := (List.dropWhile_suffix (Above (infixPower token.value)) (l := links)).length_le
          obtain ⟨whole, tokens', hextend, hwhole, hrow'⟩ :=
            ih _ (Nat.lt_succ_of_le hlength) hmiddle floor (Expr.joined token.value left right) rfl
          obtain ⟨htake, hdrop⟩ := takeWhile_above (Nat.le_of_lt hfloor) links
          rw [htake, hdrop]
          refine ⟨whole, tokens', extension_joined htoken hequals hfloor hright hextend, ?_, hrow'⟩
          rw [hwhole, Expr.bare_tree_congr (Expr.bare_joined_congr hbare),
            Expr.tree_joined hequals (above_of_mem_takeWhile hfloor links) (le_of_mem_head? _ links)]
          rfl
      · have habove : ¬ Above floor (token.value, value) = true := by
          simpa [Above] using hfloor
        rw [List.takeWhile_cons_of_neg habove, List.dropWhile_cons_of_neg habove, Expr.tree_nil]
        exact ⟨left, _, .stop (ahead_cons.2 (hpower ▸ hfloor)), rfl, .cons htoken hvalue hrow⟩

/-- An operand with a whole row after it is one expression. -/
theorem Row.exists_expression {value : Expr} {operand : List Token}
    (h : Row file rest links tokens) (hvalue : Operates file operand value)
    (hrest : Ahead (¬ Power.lowest < ·.power) rest) :
    ∃ expr, Expression file .lowest (operand ++ tokens) expr rest ∧
      expr.bare = (Expr.tree value links).bare := by
  obtain ⟨expr, rest', hexpr, hbare, hrow⟩ := hvalue.exists_expression fun start =>
    h.exists_extension hrest .lowest start
  obtain ⟨htake, hdrop⟩ := h.takeWhile_lowest
  rw [htake] at hbare
  rw [hdrop] at hrow
  cases hrow
  exact ⟨expr, hexpr, hbare⟩

end Phrase

end Offside
