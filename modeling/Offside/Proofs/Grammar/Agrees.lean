import Mathlib.Data.List.Forall2
import Offside.Proofs.Grammar.Lockstep

/-!
# Two runs of the grammar

Two runs of the grammar over the same tokens end together (`Grammar.Agrees.program`), with
expressions that differ in their places alone. The two grammars may list their rules differently, as
long as they choose the same rule at the same token (`Grammar.Agrees`).
-/

namespace Offside

open Offside.Expr (Alike relocateAll relocateBlock)
open ParseM (Agrees GoesOn RoundsAgree)
open ParseM.Agrees

variable {s : Lockstep} {n : Nat} {P : Token → Prop}

/-! ## Choices of rules -/

/-- The rules that two runs choose to start an expression at a token: none, or rules that agree on
what they are given. -/
def Starter.Agrees (s : Lockstep) (n : Nat) (inner inner' : ExprParser) (token : Token) :
    Option Starter → Option Starter → Prop
  | some rule, some rule' => ParseM.Agrees s (n + 1) (· = token) (rule.parse inner)
      (rule'.parse inner') fun expr expr' taken => expr.Alike s.place s.place' expr' ∧ 0 < taken
  | none, none => True
  | _, _ => False

/-- The rules that two runs choose to extend an expression at a token. -/
def Extender.Agrees (s : Lockstep) (n : Nat) (inner inner' : ExprParser) (token : Token) :
    Option Extender → Option Extender → Prop
  | some rule, some rule' => rule'.power = rule.power ∧
    ∀ left left', left.Alike s.place s.place' left' →
      ParseM.Agrees s (n + 1) (· = token) (rule.parse inner left rule.power)
        (rule'.parse inner' left' rule.power)
        fun expr expr' taken => expr.Alike s.place s.place' expr' ∧ 0 < taken
  | none, none => True
  | _, _ => False

/-- Two grammars that choose rules that agree on what they are given, at tokens that are read
together. -/
structure Grammar.AgreesOn (s : Lockstep) (n : Nat) (inner inner' : ExprParser)
    (grammar grammar' : Grammar) : Prop where
  starter (token : Token) (line column : Nat) : s.tokens token (token.moved line column) →
    Starter.Agrees s n inner inner' token (grammar.starter? token)
      (grammar'.starter? (token.moved line column))
  extender (token : Token) (line column : Nat) : s.tokens token (token.moved line column) →
    Extender.Agrees s n inner inner' token (grammar.extender? token)
      (grammar'.extender? (token.moved line column))

/-- Two grammars that choose rules that agree. -/
def Grammar.Agrees (s : Lockstep) (grammar grammar' : Grammar) : Prop :=
  ∀ n inner inner', inner.Agrees s n inner' → AgreesOn s n inner inner' grammar grammar'

namespace Grammar

/-- No rule starts an expression at the end token. -/
theorem goesOn_starters (bodies : ExprParser → ParseM Expr) :
    ∀ rule ∈ startersAround bodies, GoesOn (rule.accepts · = true) := by
  intro rule hrule token hregular haccepts
  cases hend : token.isEnd with
  | false => rfl
  | true =>
    have hvalue := hregular hend
    rw [Token.isEnd, beq_iff_eq] at hend
    revert rule
    simp [startersAround, hend, hvalue, Token.isIdentifier, Token.isKeyword, Token.isConstant]

/-- No rule extends an expression at the end token. -/
theorem goesOn_extenders : ∀ rule ∈ standardExtenders, GoesOn (rule.accepts · = true) := by
  intro rule hrule token hregular haccepts
  cases hend : token.isEnd with
  | false => rfl
  | true =>
    have hvalue := hregular hend
    rw [Token.isEnd, beq_iff_eq] at hend
    revert rule
    simp [standardExtenders, operator, hend, hvalue, Token.isOperator]

/-- Rules that are chosen at the same tokens, and agree on what they are given. -/
def StartersAgree (s : Lockstep) (n : Nat) (inner inner' : ExprParser) (rule rule' : Starter) : Prop :=
  rule'.accepts = rule.accepts ∧ ∀ P, GoesOn P →
    ParseM.Agrees s (n + 1) P (rule.parse inner) (rule'.parse inner') fun expr expr' taken =>
      Alike s.place s.place' expr expr' ∧ 0 < taken

theorem agrees_starters {inner inner' : ExprParser} {bodies bodies' : ExprParser → ParseM Expr}
    (h : inner.Agrees s n inner') (hbody : BodiesAgree s n (bodies inner) (bodies' inner')) :
    List.Forall₂ (StartersAgree s n inner inner') (startersAround bodies) (startersAround bodies') :=
  .cons ⟨rfl, fun _ => agrees_primary⟩ <| .cons ⟨rfl, fun _ => agrees_primary⟩ <|
  .cons ⟨rfl, fun _ => agrees_primary⟩ <| .cons ⟨rfl, fun _ => agrees_primary⟩ <|
  .cons ⟨rfl, fun _ => agrees_primary⟩ <| .cons ⟨rfl, fun _ => agrees_moduleAround hbody⟩ <|
  .cons ⟨rfl, fun _ => agrees_useDef⟩ <| .cons ⟨rfl, fun _ => agrees_scopedReference⟩ <|
  .cons ⟨rfl, fun _ => agrees_grouping h⟩ <| .cons ⟨rfl, fun _ => agrees_functionAround hbody⟩ <|
  .cons ⟨rfl, fun _ => agrees_conditionalAround hbody h⟩ .nil

/-- Of lists of rules that agree, rules that agree are chosen. -/
theorem agrees_find? {inner inner' : ExprParser} {rules rules' : List Starter} {token : Token}
    (h : List.Forall₂ (StartersAgree s n inner inner') rules rules')
    (hend : ∀ rule ∈ rules, rule.accepts token = true → GoesOn (· = token)) :
    Starter.Agrees s n inner inner' token (rules.find? (·.accepts token))
      (rules'.find? (·.accepts token)) := by
  induction h with
  | nil => trivial
  | @cons rule rule' rules rules' hrule hrules ih =>
    obtain ⟨hrest, hrule'⟩ := List.forall_mem_cons.1 hend
    rw [List.find?_cons, List.find?_cons, hrule.1]
    cases haccepts : rule.accepts token with
    | true => exact hrule.2 _ (hrest haccepts)
    | false => exact ih hrule'

theorem agrees_extenders {inner inner' : ExprParser} {left left' : Expr}
    (h : inner.Agrees s n inner') (hleft : Alike s.place s.place' left left') (power : Power) :
    ∀ rule ∈ standardExtenders, GoesOn P →
      ParseM.Agrees s (n + 1) P (rule.parse inner left power) (rule.parse inner' left' power)
        fun expr expr' taken => Alike s.place s.place' expr expr' ∧ 0 < taken := by
  have hbinary : GoesOn P → ParseM.Agrees s (n + 1) P (binary inner left power)
      (binary inner' left' power) fun expr expr' taken =>
        Alike s.place s.place' expr expr' ∧ 0 < taken := fun hP => agrees_binary h hleft hP power
  simp only [standardExtenders, operator, List.forall_mem_cons]
  exact ⟨hbinary, hbinary, hbinary, hbinary, hbinary, hbinary, hbinary, hbinary, hbinary, hbinary,
    hbinary, hbinary, hbinary, (agrees_assignment h hleft · power), (agrees_call h hleft · power),
    by simp⟩

/-- The grammar of the language chooses rules without a look at the places of tokens. -/
theorem standardAround_agreesOn {inner inner' : ExprParser}
    {bodies bodies' : ExprParser → ParseM Expr} (h : inner.Agrees s n inner')
    (hbody : BodiesAgree s n (bodies inner) (bodies' inner')) :
    AgreesOn s n inner inner' (standardAround bodies) (standardAround bodies') where
  starter token line column htokens := by
    have hmoved : (standardAround bodies').starter? (token.moved line column) =
        (standardAround bodies').starter? token := rfl
    rw [hmoved]
    refine agrees_find? (agrees_starters h hbody) fun rule hrule haccepts => ?_
    intro _ _ heq
    rw [heq]
    exact goesOn_starters bodies rule hrule token (s.regular htokens) haccepts
  extender token line column htokens := by
    have hmoved : standard.extender? (token.moved line column) = standard.extender? token := rfl
    show Extender.Agrees s n inner inner' token (standard.extender? token)
      (standard.extender? (token.moved line column))
    rw [hmoved]
    cases hrule : standard.extender? token with
    | none => trivial
    | some rule =>
      have hmem := List.mem_of_find?_eq_some hrule
      have haccepts := List.find?_some (p := fun rule : Extender => rule.accepts token) hrule
      refine ⟨rfl, fun left left' hleft => agrees_extenders h hleft rule.power rule hmem ?_⟩
      intro _ _ heq
      rw [heq]
      exact goesOn_extenders rule hmem token (s.regular htokens) haccepts

theorem standard_agrees : standard.Agrees s standard := by
  rw [standard_eq]
  exact fun n inner inner' h => standardAround_agreesOn h (agrees_body h true)

/-! ## Whole grammars -/

namespace AgreesOn

variable {grammar grammar' : Grammar} {inner inner' : ExprParser}
  (h : AgreesOn s n inner inner' grammar grammar')

include h

theorem extendRound (floor : Power) {left left' : Expr} (hleft : Alike s.place s.place' left left') :
    ParseM.Agrees s n P (grammar.extendRound inner floor left)
      (grammar'.extendRound inner' floor left')
      (RoundsAgree (Alike s.place s.place') (Alike s.place s.place')) := by
  refine look fun token line column htokens _ => ?_
  have hrule := h.extender token line column htokens
  generalize grammar.extender? token = found, grammar'.extender? (token.moved line column) = found'
    at hrule
  cases found <;> cases found' <;> try exact hrule.elim
  · exact .pure hleft
  · rename_i rule rule'
    obtain ⟨hpower, hparse⟩ := hrule
    dsimp only
    rw [hpower]
    split
    · refine note (((hparse left left' hleft).mono (Nat.le_succ n)).bind ?_) nofun nofun
      rintro expr expr' taken ⟨hexpr, htaken⟩
      exact .pure ⟨by omega, hexpr⟩
    · exact .pure hleft

theorem extend (floor : Power) {left left' : Expr} (hleft : Alike s.place s.place' left left') :
    ParseM.Agrees s n P (grammar.extend inner floor left) (grammar'.extend inner' floor left')
      fun expr expr' _ => Alike s.place s.place' expr expr' := by
  rw [extend_eq, extend_eq]
  exact loop (fun _ _ => h.extendRound floor) hleft

/-- An expression, on a token more than the expressions inside it. -/
theorem expressionStep :
    (grammar.expressionStep inner).Agrees s (n + 1) (grammar'.expressionStep inner') := by
  refine fun floor => skipNewlines.bind fun _ _ _ _ => look fun token line column htokens _ => ?_
  have hrule := h.starter token line column htokens
  generalize grammar.starter? token = found, grammar'.starter? (token.moved line column) = found'
    at hrule
  cases found <;> cases found' <;> try exact hrule.elim
  · exact .pure trivial
  · rename_i rule rule'
    refine note (ParseM.Agrees.bindWithin hrule ?_) nofun nofun
    rintro start start' taken ⟨hstart, htaken⟩
    refine ((h.extend floor hstart).mono (by omega)).bind fun whole whole' _ hwhole => ?_
    refine getPlace (fun origin => pure (some (whole.stamp origin)))
      (fun origin => pure (some (whole'.stamp origin))) htokens fun origin origin' hplace => ?_
    exact .pure ⟨hwhole.stamp hplace, by omega⟩

end AgreesOn

namespace Agrees

variable {grammar grammar' : Grammar} (h : grammar.Agrees s grammar')

include h

theorem expressionWithin (depth depth' : Nat) :
    (grammar.expressionWithin depth).Agrees s (min depth depth')
      (grammar'.expressionWithin depth') := by
  induction depth generalizing depth' with
  | zero => exact fun _ _ _ _ hlen => absurd hlen (by omega)
  | succ depth ih =>
    cases depth' with
    | zero => exact fun _ _ _ _ hlen => absurd hlen (by omega)
    | succ depth' => exact (h _ _ _ (ih depth')).expressionStep.mono (by omega)

theorem expression : grammar.expression.Agrees s n grammar'.expression :=
  fun floor => getBudget fun bound bound' => h.expressionWithin bound bound' floor

theorem programRound {found found' : Array Expr}
    (hfound : relocateAll s.place found.toList = relocateAll s.place' found'.toList) :
    ParseM.Agrees s n P (grammar.programRound found) (grammar'.programRound found')
      (RoundsAgree
        (fun found found' => relocateAll s.place found.toList = relocateAll s.place' found'.toList)
        fun found found' => relocateAll s.place found.toList = relocateAll s.place' found'.toList) := by
  refine (h.expression .lowest).any.bind fun expr expr' taken htwins => ?_
  cases expr <;> cases expr' <;> try exact htwins.elim
  · exact .pure hfound
  · have hmore := Expr.relocateAll_snoc hfound htwins.1.same
    rw [← Array.toList_push, ← Array.toList_push] at hmore
    exact .pure ⟨by have := htwins.2; omega, hmore⟩

/-- The statements of two texts, or two faults. -/
theorem program :
    ParseM.Agrees s n P grammar.program grammar'.program fun block block' _ =>
      relocateBlock s.place block = relocateBlock s.place' block' := by
  rw [program_eq, program_eq]
  refine (loop (fun _ _ => h.programRound) (by rfl)).bind fun found found' _ hfound => ?_
  have hblock : relocateBlock s.place { contents := found.toList } =
      relocateBlock s.place' { contents := found'.toList } := by
    rw [relocateBlock, relocateBlock, hfound]
  refine look fun token line column htokens _ => ?_
  have hend : (token.moved line column).isEnd = token.isEnd := rfl
  dsimp only
  rw [hend]
  split
  · exact .note (.pure hblock) nofun nofun
  · exact (fail (Q := fun _ _ _ => True) rfl).bind fun _ _ _ _ =>
      .note (.pure hblock) nofun nofun

end Agrees

end Grammar

end Offside
