import Offside.Proofs.Expr.Spelling
import Offside.Proofs.Scanner.Lays

/-!
# Printed programs

The printed form of a program: one statement on each line, in the spelling of expressions and types,
and each body in a block two columns deeper (`Expr.print`). The lines of a program whose names are
names (`Expr.isPrintable`) are read as its tokens (`Expr.lays_printedAll`).
-/

namespace Offside

open Scanner (Spells SpellsAll Begins Lays textLine separates_comma separates_colons)
open Text (apart_cons)

/-! ## Paths -/

namespace UseSegment

def text : UseSegment → String
  | module name => name
  | alternatives names => "\x7b" ++ ", ".intercalate names ++ "\x7d"

/-- Whether all names in the segment are names. -/
def isSpellable : UseSegment → Bool
  | module name => Text.isConstant name
  | alternatives names => names.all Text.isConstant

def tokens : UseSegment → List Token
  | module name => [.bare .constant name]
  | alternatives names =>
    .bare .special "\x7b" ::
      ([.bare .special ","].intercalate (names.map fun name => [Token.bare .constant name]) ++
        [.bare .special "\x7d"])

theorem tokens_ne_nil (segment : UseSegment) : segment.tokens ≠ [] := by
  cases segment <;> exact List.cons_ne_nil _ _

theorem spells_text {segment : UseSegment} (h : segment.isSpellable = true) :
    Spells segment.text segment.tokens := by
  cases segment with
  | module name => exact Scanner.spells_constant h
  | alternatives names =>
    have hnames := (Scanner.spellsAll_constants h).intercalate separates_comma
    exact hnames.enclosed ("\x7b", .special) ("\x7d", .special)

end UseSegment

/-! ## Headers -/

namespace Parameter

def text (param : Parameter) : String :=
  param.name ++ ": " ++ param.type.text

/-- Whether the name and all names in the type are names. -/
def isSpellable (param : Parameter) : Bool :=
  Text.isIdentifier param.name && param.type.isSpellable

def tokens (param : Parameter) : List Token :=
  .bare .identifier param.name :: .bare .special ":" :: param.type.tokens

end Parameter

namespace Expr

/-- Whether the path begins with a module, and all names in it are names. -/
def isUsePath : List UseSegment → Bool
  | .module name :: path => Text.isConstant name && path.all UseSegment.isSpellable
  | _ => false

/-- The line of a `use` declaration. -/
def useText (path : List UseSegment) : String :=
  "use " ++ "::".intercalate (path.map UseSegment.text)

/-- The result of a function, after an arrow. -/
def resultText : Option TypeExpr → String
  | none => ""
  | some type => " -> " ++ type.text

/-- The line that a function begins with. -/
def functionText (name : String) (params : List Parameter) (result : Option TypeExpr) : String :=
  "fn " ++ name ++ "(" ++ ", ".intercalate (params.map Parameter.text) ++ ")" ++ resultText result

def useTokens (path : List UseSegment) : List Token :=
  .bare .keyword "use" :: [.bare .special "::"].intercalate (path.map UseSegment.tokens)

def resultTokens : Option TypeExpr → List Token
  | none => []
  | some type => .bare .special "->" :: type.tokens

def functionTokens (name : String) (params : List Parameter) (result : Option TypeExpr) :
    List Token :=
  .bare .keyword "fn" :: .bare .identifier name ::
    (TypeExpr.parenTokens (params.map Parameter.tokens) ++ resultTokens result)

theorem all_of_isUsePath {path : List UseSegment} (h : isUsePath path = true) :
    ∀ segment ∈ path, segment.isSpellable = true := by
  unfold isUsePath at h
  split at h
  · rw [Bool.and_eq_true, List.all_eq_true] at h
    exact List.forall_mem_cons.2 h
  · cases h

theorem spells_useText {path : List UseSegment} (h : isUsePath path = true) :
    Spells (useText path) (useTokens path) := by
  have hpath : SpellsAll (path.map UseSegment.text) (path.map UseSegment.tokens) :=
    Scanner.spellsAll_map fun segment hsegment =>
      ⟨UseSegment.spells_text (all_of_isUsePath h segment hsegment), segment.tokens_ne_nil⟩
  have hne : [Token.bare .special "::"].intercalate (path.map UseSegment.tokens) ≠ [] := by
    cases path with
    | nil => cases h
    | cons segment path => exact Scanner.intercalate_ne_nil segment.tokens_ne_nil
  have huse : Spells "use" _ := Scanner.spells_keyword
  exact huse.spaced (hpath.intercalate separates_colons) hne

theorem spells_functionText {name : String} {params : List Parameter} {result : Option TypeExpr}
    (hname : Text.isIdentifier name = true) (hparams : params.all Parameter.isSpellable = true)
    (hresult : result.all TypeExpr.isSpellable = true) :
    Spells (functionText name params result) (functionTokens name params result) := by
  have hparams : SpellsAll (params.map Parameter.text) (params.map Parameter.tokens) := by
    refine Scanner.spellsAll_map fun param hparam => ⟨?_, List.cons_ne_nil _ _⟩
    have hparam := List.all_eq_true.1 hparams param hparam
    rw [Parameter.isSpellable, Bool.and_eq_true] at hparam
    exact (TypeExpr.spells_text _ hparam.2).labelled hparam.1 (TypeExpr.tokens_ne_nil hparam.2)
  have hlist := TypeExpr.spells_parens hparams
  have hfn : Spells "fn" _ := Scanner.spells_keyword
  have hhead := hfn.spaced (Scanner.spells_identifier hname) (List.cons_ne_nil _ _)
  have hcall := hhead.followed hlist fun more => by
    rw [String.toList_append, String.toList_append, List.append_assoc, List.append_assoc]
    exact apart_cons (c := '(') _
  rw [functionText, show "fn " = "fn" ++ " " from rfl, functionTokens]
  cases result with
  | none =>
    rw [resultText, resultTokens, String.append_empty, List.append_nil]
    simp only [String.append_assoc] at hcall ⊢
    exact hcall
  | some type =>
    have harrow := (Scanner.spells_symbol ("->", .special)).spaced
      (TypeExpr.spells_text type hresult) (TypeExpr.tokens_ne_nil hresult)
    have hall := hcall.spaced harrow (List.cons_ne_nil _ _)
    rw [resultText, resultTokens, show " -> " = " " ++ "->" ++ " " from rfl]
    simp only [String.append_assoc] at hall ⊢
    exact hall

/-! ## Statements -/

mutual

/-- A statement as it is printed inside `depth` blocks. -/
def printed (depth : Nat) : Expr → String
  | moduleDef _ name body =>
    textLine depth ("module " ++ name) ++ printedBlock (depth + 1) body
  | useDef _ path => textLine depth (useText path)
  | functionDef _ name params result body =>
    textLine depth (functionText name params result) ++ printedBlock (depth + 1) body
  | conditional _ condition whenTrue whenFalse =>
    textLine depth ("if " ++ condition.spelling) ++ printedBlock (depth + 1) whenTrue ++
      if whenFalse.contents.isEmpty then ""
      else textLine depth "else" ++ printedBlock (depth + 1) whenFalse
  | expr => textLine depth expr.spelling
termination_by structural expr => expr

def printedAll (depth : Nat) : List Expr → String
  | [] => ""
  | expr :: rest => expr.printed depth ++ printedAll depth rest
termination_by structural exprs => exprs

def printedBlock (depth : Nat) : Block Expr → String
  | ⟨_, contents⟩ => printedAll depth contents
termination_by structural body => body

end

/-- A program as it is printed. -/
def print (program : List Expr) : String :=
  printedAll 0 program

mutual

/-- Whether the statement is an expression of one line or a declaration or conditional with bodies of
such statements, and all names in it are names. No body but that of an `else` is empty. -/
def isPrintable : Expr → Bool
  | moduleDef _ name body => Text.isConstant name && isPrintableBody body
  | useDef _ path => isUsePath path
  | functionDef _ name params result body =>
    Text.isIdentifier name && params.all Parameter.isSpellable &&
      result.all TypeExpr.isSpellable && isPrintableBody body
  | conditional _ condition whenTrue whenFalse =>
    condition.isSpellable && isPrintableBody whenTrue &&
      (whenFalse.contents.isEmpty || isPrintableBody whenFalse)
  | expr => expr.isSpellable
termination_by structural expr => expr

def arePrintable : List Expr → Bool
  | [] => true
  | expr :: rest => expr.isPrintable && arePrintable rest
termination_by structural exprs => exprs

def isPrintableBody : Block Expr → Bool
  | ⟨_, contents⟩ => !contents.isEmpty && arePrintable contents
termination_by structural body => body

end

/-- The tokens of a line, and of the block after it. -/
def blockTokens (header body : List Token) : List Token :=
  header ++ .bare .newline "\n" :: .bare .indent "" :: (body ++ [.bare .outdent ""])

mutual

/-- The tokens of a printed statement, its line ends and blocks included. -/
def lineTokens : Expr → List Token
  | moduleDef _ name body =>
    blockTokens [.bare .keyword "module", .bare .constant name] (bodyTokens body)
  | useDef _ path => useTokens path ++ [.bare .newline "\n"]
  | functionDef _ name params result body =>
    blockTokens (functionTokens name params result) (bodyTokens body)
  | conditional _ condition whenTrue whenFalse =>
    blockTokens (.bare .keyword "if" :: condition.tokens) (bodyTokens whenTrue) ++
      if whenFalse.contents.isEmpty then []
      else blockTokens [.bare .keyword "else"] (bodyTokens whenFalse)
  | expr => expr.tokens ++ [.bare .newline "\n"]
termination_by structural expr => expr

def linesTokens : List Expr → List Token
  | [] => []
  | expr :: rest => expr.lineTokens ++ linesTokens rest
termination_by structural exprs => exprs

def bodyTokens : Block Expr → List Token
  | ⟨_, contents⟩ => linesTokens contents
termination_by structural body => body

end

/-! ## Printed statements are read as these tokens -/

theorem begins_of_isWord {first : Char → Bool} {text : String} (h : Text.isWord first text = true)
    (hfirst : first ' ' = false ∧ first '\n' = false := by decide) : Begins text := by
  obtain ⟨c, rest, htext, hc, -⟩ := Text.exists_cons_of_isWord h
  refine ⟨c, rest, htext, ?_, ?_⟩ <;> rintro rfl
  · rw [hfirst.1] at hc
    cases hc
  · rw [hfirst.2] at hc
    cases hc

theorem begins_intercalate {text : String} (h : Begins text) (separator : String)
    (texts : List String) : Begins (separator.intercalate (text :: texts)) := by
  cases texts with
  | nil => rwa [String.intercalate_singleton]
  | cons =>
    rw [String.intercalate_cons_cons, String.append_assoc]
    exact h.append _

theorem begins_int (value : Int) : Begins (toString value) := by
  obtain ⟨sign, digits, htext, hsign, hdigits, -⟩ := Text.exists_toList_toString value
  rcases hsign with rfl | rfl
  · obtain ⟨c, rest, rfl⟩ := List.exists_cons_of_ne_nil hdigits.ne_nil
    have hdigit := hdigits.all c List.mem_cons_self
    refine ⟨c, rest, htext, ?_, ?_⟩ <;> rintro rfl <;> cases hdigit
  · exact ⟨'-', digits, htext, by decide⟩

theorem begins_spelling {expr : Expr} (h : expr.isSpellable = true) : Begins expr.spelling := by
  have hparen : Begins "(" := ⟨'(', [], rfl, by decide⟩
  cases expr with
  | identifier _ name =>
    rw [isSpellable, Text.isIdentifier, Bool.and_eq_true] at h
    exact begins_of_isWord h.1
  | intLit _ value => exact begins_int value.toInt
  | boolLit _ value =>
    cases value with
    | false => exact show Begins "false" from ⟨'f', _, rfl, by decide⟩
    | true => exact show Begins "true" from ⟨'t', _, rfl, by decide⟩
  | stringLit _ value =>
    have hquote : Begins "\"" := ⟨'"', [], rfl, by decide⟩
    exact (hquote.append value).append _
  | reference _ modules name =>
    cases modules with
    | nil => cases h
    | cons module modules =>
      simp only [isSpellable, List.all_cons, Bool.and_eq_true] at h
      exact begins_intercalate (begins_of_isWord h.1.2.1) _ _
  | binary | assign | call => exact (hparen.append _).append _
  | block | moduleDef | useDef | floatLit | arguments | parameter | functionDef | conditional =>
    cases h

theorem lays_spelling {expr : Expr} (h : expr.isSpellable = true) (depth : Nat) :
    Lays depth (textLine depth expr.spelling) (expr.tokens ++ [.bare .newline "\n"]) :=
  Scanner.lays_textLine (spells_spelling expr h) (begins_spelling h)

mutual

theorem lays_printed : ∀ (expr : Expr) (depth : Nat), expr.isPrintable = true →
    Lays depth (expr.printed depth) expr.lineTokens
  | moduleDef _ name body, depth, h => by
    rw [isPrintable, Bool.and_eq_true] at h
    have hmodule : Spells "module" _ := Scanner.spells_keyword
    have hheader := hmodule.spaced (Scanner.spells_constant h.1) (List.cons_ne_nil _ _)
    exact .block hheader (.append ⟨'m', _, rfl, by decide⟩ name) (lays_printedBlock body _ h.2)
  | useDef _ path, depth, h =>
    Scanner.lays_textLine (spells_useText h) (.append ⟨'u', _, rfl, by decide⟩ _)
  | functionDef _ name params result body, depth, h => by
    simp only [isPrintable, Bool.and_eq_true] at h
    obtain ⟨⟨⟨hname, hparams⟩, hresult⟩, hbody⟩ := h
    have hbegins : Begins (functionText name params result) := by
      simp only [functionText, String.append_assoc]
      exact .append ⟨'f', _, rfl, by decide⟩ _
    exact .block (spells_functionText hname hparams hresult) hbegins (lays_printedBlock body _ hbody)
  | conditional _ condition whenTrue whenFalse, depth, h => by
    simp only [isPrintable, Bool.and_eq_true, Bool.or_eq_true] at h
    obtain ⟨⟨hcondition, htrue⟩, hfalse⟩ := h
    have hif : Spells "if" _ := Scanner.spells_keyword
    have hheader := hif.spaced (spells_spelling condition hcondition) (tokens_ne_nil hcondition)
    have hthen : Lays depth _ _ := .block hheader (.append ⟨'i', _, rfl, by decide⟩ _)
      (lays_printedBlock whenTrue _ htrue)
    rw [printed, lineTokens]
    by_cases hempty : whenFalse.contents.isEmpty = true
    · rw [if_pos hempty, if_pos hempty, String.append_empty, List.append_nil]
      exact hthen
    · have helse : Spells "else" _ := Scanner.spells_keyword
      rw [if_neg hempty, if_neg hempty]
      exact hthen.append (.block helse ⟨'e', _, rfl, by decide⟩
        (lays_printedBlock whenFalse _ (hfalse.resolve_left hempty)))
  | identifier .., depth, h | intLit .., depth, h | boolLit .., depth, h | stringLit .., depth, h
  | reference .., depth, h | binary .., depth, h | assign .., depth, h | call .., depth, h =>
    lays_spelling h depth
  | block _, _, h | floatLit .., _, h | arguments .., _, h | parameter _, _, h => by cases h

theorem lays_printedAll : ∀ (exprs : List Expr) (depth : Nat), exprs ≠ [] →
    arePrintable exprs = true → Lays depth (printedAll depth exprs) (linesTokens exprs)
  | [], _, hne, _ => absurd rfl hne
  | [expr], depth, _, h => by
    rw [arePrintable, Bool.and_eq_true] at h
    rw [printedAll, printedAll, linesTokens, linesTokens, String.append_empty, List.append_nil]
    exact lays_printed expr depth h.1
  | expr :: next :: rest, depth, _, h => by
    rw [arePrintable, Bool.and_eq_true] at h
    exact (lays_printed expr depth h.1).append
      (lays_printedAll (next :: rest) depth (List.cons_ne_nil _ _) h.2)

theorem lays_printedBlock : ∀ (body : Block Expr) (depth : Nat), isPrintableBody body = true →
    Lays depth (printedBlock depth body) (bodyTokens body)
  | ⟨_, contents⟩, depth, h => by
    rw [isPrintableBody, Bool.and_eq_true] at h
    exact lays_printedAll contents depth (by simpa using h.1) h.2

end

end Expr

end Offside
