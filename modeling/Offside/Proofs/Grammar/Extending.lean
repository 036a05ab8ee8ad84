import Offside.Grammar.Standard
import Offside.Proofs.Grammar.Declaration

/-!
# Extending an expression

The rules for extending an expression are those for the binary operators, for `=` and for `->`
(`Grammar.extender?_cases`). The loop that applies them parses exactly `Phrase.Extension`
(`Grammar.parses_extend`).
-/

namespace Offside

open ParseM (Parses)
open Phrase

variable {file : String} {last : Token} {n : Nat} {inner : ExprParser}

namespace Grammar

theorem find?_operators (token : Token) (rows : List (String × Power)) :
    (rows.map fun row => operator row.1 row.2).find? (·.accepts token) =
      if token.kind = .operator then (rows.lookup token.value).map (operator token.value)
      else none := by
  induction rows with
  | nil => simp
  | cons row rows ih =>
    obtain ⟨text, power⟩ := row
    rw [List.map_cons, List.find?_cons, ih]
    by_cases hkind : token.kind = .operator
    · by_cases hvalue : token.value = text
      · simp [operator, Token.isOperator, hkind, hvalue]
      · have hlookup : (token.value == text) = false := beq_false_of_ne hvalue
        simp [operator, Token.isOperator, hkind, List.lookup_cons, hlookup]
    · have hother : (token.kind == .operator) = false := beq_false_of_ne hkind
      simp [operator, Token.isOperator, hother, hkind]

/-- The rule for assignments. -/
def assignmentRule : Extender :=
  ⟨"=", .assignment, fun token => token.value == "=", assignment⟩

/-- The rule for calls. -/
def callRule : Extender :=
  ⟨"->", .call, fun token => token.value == "->", call⟩

theorem extender?_eq (token : Token) :
    standard.extender? token =
      match token.binaryPower? with
      | some power => some (operator token.value power)
      | none =>
        if token.value = "=" then some assignmentRule
        else if token.value = "->" then some callRule
        else none := by
  have hrules : standard.extenders =
      (operatorPowers.map fun row => operator row.1 row.2) ++ [assignmentRule, callRule] := rfl
  rw [extender?, hrules, List.find?_append, find?_operators]
  have hbinary : (if token.kind = .operator then
      (operatorPowers.lookup token.value).map (operator token.value) else none) =
        token.binaryPower?.map (operator token.value) := by
    unfold Token.binaryPower?
    split <;> rfl
  rw [hbinary]
  cases token.binaryPower? with
  | some power => rfl
  | none =>
    by_cases hequals : token.value = "="
    · simp [assignmentRule, hequals]
    · by_cases harrow : token.value = "->"
      · simp [assignmentRule, callRule, harrow]
      · simp [assignmentRule, callRule, hequals, harrow]

/-- Neither `=` nor `->` is a binary operator. -/
theorem value_ne_of_binaryPower? {token : Token} {power : Power}
    (h : token.binaryPower? = some power) : token.value ≠ "=" ∧ token.value ≠ "->" := by
  have hrows : ∀ row ∈ operatorPowers, row.1 ≠ "=" ∧ row.1 ≠ "->" := by decide
  exact hrows _ (mem_of_binaryPower? h)

/-- One more rule that extends an expression, or none. -/
inductive ExtendRound (file : String) (floor : Power) (left : Expr) : Phrase (Round Expr Expr)
  | stop {tokens : List Token} (h : Ahead (¬ floor < ·.power) tokens) :
    ExtendRound file floor left tokens (.done left) tokens
  | binary {power : Power} {right : Expr} {token : Token} {tokens rest : List Token}
    (hpower : token.binaryPower? = some power) (hfloor : floor < power)
    (hright : Expression file power tokens right rest) :
    ExtendRound file floor left (token :: tokens) (.again (.binary {} left token.value right)) rest
  | assign {value : Expr} {token : Token} {tokens rest : List Token} (hequals : token.value = "=")
    (hfloor : floor < .assignment) (hvalue : Expression file .lowest tokens value rest) :
    ExtendRound file floor left (token :: tokens) (.again (.assign {} left value)) rest
  | call {target : Expr} {token : Token} {tokens rest : List Token} (harrow : token.value = "->")
    (hfloor : floor < .call) (htarget : Expression file .call tokens target rest) :
    ExtendRound file floor left (token :: tokens) (.again (.call {} target left.callArguments)) rest

theorem extension_of_loops {floor : Power} {left whole : Expr} {tokens rest : List Token}
    (h : ParseM.Loops (ExtendRound file floor) left tokens whole rest) :
    Extension file floor left tokens whole rest := by
  induction h with
  | done h =>
    cases h with
    | stop h => exact .stop h
  | again h _ ih =>
    cases h with
    | binary hpower hfloor hright => exact .binary hpower hfloor hright ih
    | assign hequals hfloor hvalue => exact .assign hequals hfloor hvalue ih
    | call harrow hfloor htarget => exact .call harrow hfloor htarget ih

theorem loops_of_extension {floor : Power} {left whole : Expr} {tokens rest : List Token}
    (h : Extension file floor left tokens whole rest) :
    ParseM.Loops (ExtendRound file floor) left tokens whole rest := by
  induction hlength : tokens.length using Nat.strongRecOn generalizing left tokens with
  | ind length ih =>
    subst hlength
    have hlater {power : Power} {token : Token} {tokens' middle : List Token} {expr : Expr}
        (hexpr : Expression file power tokens' expr middle) :
        middle.length < (token :: tokens').length :=
      Nat.lt_succ_of_lt hexpr.takes.length_lt
    cases h with
    | stop h => exact .done (.stop h)
    | binary hpower hfloor hright hrest =>
      exact .again (.binary hpower hfloor hright) (ih _ (hlater hright) hrest rfl)
    | assign hequals hfloor hvalue hrest =>
      exact .again (.assign hequals hfloor hvalue) (ih _ (hlater hvalue) hrest rfl)
    | call harrow hfloor htarget hrest =>
      exact .again (.call harrow hfloor htarget) (ih _ (hlater htarget) hrest rfl)

/-- The rule that extends an expression at a token, by the power of the token. -/
theorem extender?_cases (token : Token) :
    (∃ power, token.binaryPower? = some power ∧ token.power = power ∧
        standard.extender? token = some (operator token.value power)) ∨
      (token.value = "=" ∧ token.power = .assignment ∧
        standard.extender? token = some assignmentRule) ∨
      (token.value = "->" ∧ token.power = .call ∧ standard.extender? token = some callRule) ∨
      (token.power = .lowest ∧ standard.extender? token = none) := by
  rw [extender?_eq, Token.power]
  cases token.binaryPower? with
  | some power => exact .inl ⟨power, rfl, rfl, rfl⟩
  | none =>
    by_cases hequals : token.value = "="
    · exact .inr (.inl ⟨hequals, by simp [hequals], by simp [hequals]⟩)
    · by_cases harrow : token.value = "->"
      · exact .inr (.inr (.inl ⟨harrow, by simp [harrow], by simp [harrow]⟩))
      · exact .inr (.inr (.inr ⟨by simp [hequals, harrow], by simp [hequals, harrow]⟩))

theorem power_of_isLast (h : last.IsLast) : last.power = .lowest := by
  simp [Token.power, Token.binaryPower?, h.kind_eq, h.value_eq]

theorem not_lt_lowest (floor : Power) : ¬ floor < .lowest :=
  Nat.not_lt_zero _

theorem power_of_binary {token : Token} {power : Power} (h : token.binaryPower? = some power) :
    token.power = power := by
  simp [Token.power, h]

theorem binaryPower?_of_mark {token : Token} (h : token.value = "=" ∨ token.value = "->") :
    token.binaryPower? = none := by
  cases hpower : token.binaryPower? with
  | none => rfl
  | some power =>
    have hne := value_ne_of_binaryPower? hpower
    exact absurd h (not_or.2 hne)

theorem power_of_equals {token : Token} (h : token.value = "=") : token.power = .assignment := by
  simp [Token.power, binaryPower?_of_mark (.inl h), h]

theorem power_of_arrow {token : Token} (h : token.value = "->") : token.power = .call := by
  simp [Token.power, binaryPower?_of_mark (.inr h), h]

/-- What a round of `Grammar.extend` does at a token. -/
def extendAt (inner : ExprParser) (floor : Power) (left : Expr) (token : Token) :
    ParseM (Round Expr Expr) :=
  match standard.extender? token with
  | some rule =>
    if floor < rule.power then do
      ParseM.note (.ruleExtended rule.name token)
      return .again (← rule.parse inner left rule.power)
    else return .done left
  | none => return .done left

theorem parses_extendAt {floor : Power} {left : Expr} {token : Token} {rule : Extender}
    {q : Phrase Expr} (hrule : standard.extender? token = some rule) (hfloor : floor < rule.power)
    (hq : Parses file last n (rule.parse inner left rule.power) q) :
    Parses file last n (extendAt inner floor left token) fun tokens round rest =>
      ∃ whole, q tokens whole rest ∧ round = .again whole := by
  rw [extendAt, hrule]
  show Parses file last n (if floor < rule.power then _ else _) _
  rw [if_pos hfloor]
  refine (Parses.bind (.note _) fun _ => .bind hq fun whole => .pure (Round.again whole)).congr
    fun _ tokens _ round rest => ?_
  constructor
  · intro h
    obtain ⟨-, _, rfl, whole, _, hwhole, rfl, rfl⟩ := h
    exact ⟨whole, hwhole, rfl⟩
  · intro h
    obtain ⟨whole, hwhole, rfl⟩ := h
    exact ⟨(), tokens, rfl, whole, rest, hwhole, rfl, rfl⟩

theorem extendAt_of_not_lt {floor : Power} {left : Expr} {token : Token}
    (h : ¬ floor < token.power) : extendAt inner floor left token = pure (.done left) := by
  rw [extendAt]
  obtain ⟨power, -, rfl, hrule⟩ | ⟨-, hpower, hrule⟩ | ⟨-, hpower, hrule⟩ | ⟨-, hrule⟩ :=
    extender?_cases token <;> rw [hrule]
  · exact if_neg h
  · rw [hpower] at h
    exact if_neg h
  · rw [hpower] at h
    exact if_neg h

/-- Below the floor there is nothing to extend an expression with. -/
theorem extendRound_iff_of_not_lt {floor : Power} {left : Expr} {tokens rest : List Token}
    {round : Round Expr Expr} (h : Ahead (¬ floor < ·.power) tokens) :
    ExtendRound file floor left tokens round rest ↔ round = .done left ∧ rest = tokens := by
  constructor
  · intro hround
    cases hround with
    | stop => exact ⟨rfl, rfl⟩
    | binary hpower hfloor =>
      rw [ahead_cons, power_of_binary hpower] at h
      exact absurd hfloor h
    | assign hequals hfloor =>
      rw [ahead_cons, power_of_equals hequals] at h
      exact absurd hfloor h
    | call harrow hfloor =>
      rw [ahead_cons, power_of_arrow harrow] at h
      exact absurd hfloor h
  · intro hround
    obtain ⟨rfl, rfl⟩ := hround
    exact .stop h

/-- The end token has no power, so a token above the floor comes from the list. -/
theorem exists_cons_of_lt_power {floor : Power} {token : Token} {tokens : List Token}
    (hlast : last.IsLast) (hfloor : floor < token.power) (hhead : tokens.headD last = token) :
    ∃ others, tokens = token :: others := by
  cases tokens with
  | nil =>
    rw [← hhead, List.headD_nil, power_of_isLast hlast] at hfloor
    exact absurd hfloor (not_lt_lowest floor)
  | cons first others => exact ⟨others, by rw [← hhead, List.headD_cons]⟩

section

variable {floor : Power} {left : Expr} {token : Token} {others rest : List Token}
  {round : Round Expr Expr}

theorem extendRound_binary_iff (hbinary : token.binaryPower? = some token.power)
    (hfloor : floor < token.power) :
    (∃ whole, (∃ right, Expression file token.power others right rest ∧
      whole = .binary {} left token.value right) ∧ round = .again whole) ↔
        ExtendRound file floor left (token :: others) round rest := by
  constructor
  · intro hround
    obtain ⟨_, ⟨right, hright, rfl⟩, rfl⟩ := hround
    exact .binary hbinary hfloor hright
  · intro hround
    cases hround with
    | stop hstop => exact absurd hfloor (ahead_cons.1 hstop)
    | binary hpower _ hright =>
      rw [power_of_binary hpower]
      exact ⟨_, ⟨_, hright, rfl⟩, rfl⟩
    | assign hequals => exact absurd hequals (value_ne_of_binaryPower? hbinary).1
    | call harrow => exact absurd harrow (value_ne_of_binaryPower? hbinary).2

theorem extendRound_assign_iff (hequals : token.value = "=") (hfloor : floor < .assignment) :
    (∃ whole, (∃ value, Expression file .lowest others value rest ∧
      whole = .assign {} left value) ∧ round = .again whole) ↔
        ExtendRound file floor left (token :: others) round rest := by
  constructor
  · intro hround
    obtain ⟨_, ⟨value, hvalue, rfl⟩, rfl⟩ := hround
    exact .assign hequals hfloor hvalue
  · intro hround
    cases hround with
    | stop hstop => exact absurd hfloor (power_of_equals hequals ▸ ahead_cons.1 hstop)
    | binary hbinary => exact absurd hequals (value_ne_of_binaryPower? hbinary).1
    | assign _ _ hvalue => exact ⟨_, ⟨_, hvalue, rfl⟩, rfl⟩
    | call harrow =>
      rw [harrow] at hequals
      exact absurd hequals (by decide)

theorem extendRound_call_iff (harrow : token.value = "->") (hfloor : floor < .call) :
    (∃ whole, (∃ target, Expression file .call others target rest ∧
      whole = .call {} target left.callArguments) ∧ round = .again whole) ↔
        ExtendRound file floor left (token :: others) round rest := by
  constructor
  · intro hround
    obtain ⟨_, ⟨target, htarget, rfl⟩, rfl⟩ := hround
    exact .call harrow hfloor htarget
  · intro hround
    cases hround with
    | stop hstop => exact absurd hfloor (power_of_arrow harrow ▸ ahead_cons.1 hstop)
    | binary hbinary => exact absurd harrow (value_ne_of_binaryPower? hbinary).2
    | assign hequals =>
      rw [harrow] at hequals
      exact absurd hequals (by decide)
    | call _ _ htarget => exact ⟨_, ⟨_, htarget, rfl⟩, rfl⟩

end

theorem parses_extendRound (h : inner.Parses file last (n + 1)) (floor : Power) (left : Expr) :
    Parses file last (n + 2) (standard.extendRound inner floor left)
      (ExtendRound file floor left) := by
  show Parses file last (n + 2) (do extendAt inner floor left (← ParseM.peek)) _
  refine Parses.look fun token => ?_
  by_cases hfloor : floor < token.power
  · obtain ⟨power, hbinary, rfl, hrule⟩ | ⟨hequals, hpower, hrule⟩ | ⟨harrow, hpower, hrule⟩
      | ⟨hpower, hrule⟩ := extender?_cases token
    · refine ⟨_, parses_extendAt hrule hfloor (parses_binary h left token.power),
        fun hlast tokens _ round rest hhead => ?_⟩
      obtain ⟨others, rfl⟩ := exists_cons_of_lt_power hlast hfloor hhead
      exact extendRound_binary_iff hbinary hfloor
    · have hfloor' : floor < .assignment := hpower ▸ hfloor
      refine ⟨_, parses_extendAt hrule hfloor' (parses_assignment h left .assignment),
        fun hlast tokens _ round rest hhead => ?_⟩
      obtain ⟨others, rfl⟩ := exists_cons_of_lt_power hlast hfloor hhead
      exact extendRound_assign_iff hequals hfloor'
    · have hfloor' : floor < .call := hpower ▸ hfloor
      refine ⟨_, parses_extendAt hrule hfloor' (parses_call h left .call),
        fun hlast tokens _ round rest hhead => ?_⟩
      obtain ⟨others, rfl⟩ := exists_cons_of_lt_power hlast hfloor hhead
      exact extendRound_call_iff harrow hfloor'
    · rw [hpower] at hfloor
      exact absurd hfloor (not_lt_lowest floor)
  · rw [extendAt_of_not_lt hfloor]
    refine ⟨_, .pure (Round.done left), fun hlast tokens _ round rest hhead => ?_⟩
    refine (extendRound_iff_of_not_lt fun first hfirst => ?_).symm
    cases tokens with
    | nil => cases hfirst
    | cons =>
      cases hfirst
      rwa [← hhead] at hfloor

theorem length_lt_of_extendRound {floor : Power} {left next : Expr} {tokens rest : List Token}
    (h : ExtendRound file floor left tokens (.again next) rest) : rest.length < tokens.length := by
  cases h with
  | binary _ _ h => exact Nat.lt_succ_of_lt h.takes.length_lt
  | assign _ _ h => exact Nat.lt_succ_of_lt h.takes.length_lt
  | call _ _ h => exact Nat.lt_succ_of_lt h.takes.length_lt

theorem parses_extend (h : inner.Parses file last (n + 1)) (floor : Power) (left : Expr) :
    Parses file last (n + 2) (standard.extend inner floor left) (Extension file floor left) :=
  (Parses.loop (parses_extendRound h floor) (fun _ _ _ _ => length_lt_of_extendRound) left).congr
    fun _ _ _ _ _ => ⟨extension_of_loops, loops_of_extension⟩

end Grammar

end Offside
