import Offside.Proofs.Precedence.Operand
import Offside.Proofs.Precedence.Row

/-!
# Operands with infix tokens between them

A line of operands is parsed into the tree that its infix tokens split it into (`parse_line`): its
tokens are those of its operands, and of its infix tokens between them, and so they are an operand
and a row.
-/

namespace Offside

open Grammar Phrase
open Scanner (Reads)
open Text (Spaced)

/-- An infix token and the operand after it. -/
structure Link where
  operator : String
  operand : Operand
  operator_mem : operator ∈ infixPowers.map Prod.fst

/-- An operand, and any number of further ones with infix tokens before them. -/
structure Line where
  first : Operand
  links : List Link

namespace Line

/-- The texts of the operands and of the infix tokens, with spaces between them. -/
def text (line : Line) : String :=
  " ".intercalate
    (line.first.text :: line.links.flatMap fun link => [link.operator, link.operand.text])

/-- The tree of the values of the operands. -/
def tree (line : Line) : Expr :=
  Expr.tree line.first.value (line.links.map fun link => (link.operator, link.operand.value))

end Line

/-! ## Lines -/

/-- The text of operands after infix tokens, each word after a space. -/
def Link.text (link : Link) : List Char :=
  ' ' :: (link.operator.toList ++ ' ' :: link.operand.text.toList)

theorem Line.toList_text (line : Line) :
    line.text.toList = line.first.text.toList ++ line.links.flatMap Link.text := by
  obtain ⟨first, links⟩ := line
  unfold text
  dsimp only
  generalize first.text = word
  induction links generalizing word with
  | nil => rw [List.flatMap_nil, String.intercalate_singleton, List.flatMap_nil, List.append_nil]
  | cons link links ih =>
    simp only [List.flatMap_cons, List.cons_append, List.nil_append,
      String.intercalate_cons_cons, String.toList_append, ih, Link.text, List.append_assoc]
    rfl

theorem spaced_links (links : List Link) : Spaced (links.flatMap Link.text) := by
  cases links with
  | nil => exact Text.spaced_nil
  | cons link links => exact Text.spaced_cons _

/-- The tokens of an operand start an expression with its value before any others. -/
theorem Operand.exists_operates (operand : Operand) (file : String) : ∃ tokens spaces,
    (∀ more, Spaced more →
      Reads [0] (operand.text.toList ++ more) tokens [0] (spaces ++ more)) ∧
        spaces.dropWhile (· == ' ') = [] ∧ tokens ≠ [] ∧ Operates file tokens operand.value := by
  obtain ⟨tokens, spaces, hreads, hspaces, hstart, hstarts⟩ := operand.exists_reads
  refine ⟨tokens, spaces, hreads, hspaces, hstart.takes.1, fun rest => ?_⟩
  obtain ⟨first, others, rfl, hdeclares⟩ := hstarts
  obtain ⟨start, rest', hstart', hbare, hrest⟩ :=
    hstart.moved (Token.Moved.refl _) fun h => by simp [hdeclares] at h
  cases hrest
  exact ⟨start, hstart', hbare⟩

theorem exists_row (links : List Link) (file : String) {before : List Char}
    (hbefore : before.dropWhile (· == ' ') = []) : ∃ tokens spaces,
      Row file [] (links.map fun link => (link.operator, link.operand.value)) tokens ∧
        Reads [0] (before ++ links.flatMap Link.text) tokens [0] spaces ∧
          spaces.dropWhile (· == ' ') = [] := by
  induction links generalizing before with
  | nil =>
    rw [List.flatMap_nil, List.append_nil]
    exact ⟨[], before, .nil, Reads.refl, hbefore⟩
  | cons link links ih =>
    obtain ⟨operand, between, hoperand, hbetween, hne, hvalue⟩ :=
      link.operand.exists_operates file
    obtain ⟨tokens, spaces, hrow, hreads, hspaces⟩ := ih hbetween
    let token : Token :=
      { kind := infixKind link.operator, value := link.operator, line := 0, column := 0 }
    have htoken : token.IsInfix := ⟨rfl, link.operator_mem⟩
    refine ⟨token :: (operand ++ tokens), spaces, .cons htoken hvalue hrow, ?_, hspaces⟩
    have hcut := Token.cut?_of_mem_infixPowers link.operator_mem
      (link.operand.text.toList ++ links.flatMap Link.text)
    have hlink := ((hoperand _ (spaced_links links)).space hne).trans hreads
    have hall := (Reads.cut hcut).trans hlink
    have hall := (hall.space (List.cons_ne_nil _ _)).spaces (List.cons_ne_nil _ _) hbefore
    rw [List.flatMap_cons, Link.text, List.cons_append, List.append_assoc]
    exact hall

/-- A line of operands with infix tokens between them is one expression, which is the tree of the
values of the operands. -/
theorem parse_line (line : Line) (file : Option String) : ∃ block expr,
    (parse line.text file).result = .ok block ∧ block.contents = [expr] ∧
      expr.bare = line.tree.bare := by
  obtain ⟨operand, between, hoperand, hbetween, -, hvalue⟩ :=
    line.first.exists_operates (file.getD Scanner.unknownFile)
  obtain ⟨others, spaces, hrow, hothers, hspaces⟩ := exists_row line.links _ hbetween
  obtain ⟨expr, hexpr, hbare⟩ := hrow.exists_expression hvalue ahead_nil
  -- From the tokens of the operands to those of the line.
  have hreads := (hoperand _ (spaced_links line.links)).trans hothers
  rw [← Line.toList_text] at hreads
  obtain ⟨found, last, htokens, hmoved⟩ := exists_tokenize_of_reads file hreads hspaces
  obtain ⟨expr', rest, hexpr', hbare', hrest⟩ := hexpr.moved hmoved fun _ => rfl
  cases hrest
  refine ⟨{ contents := [expr'] }, expr', parse_eq_ok_iff.2 ⟨found, last, htokens, rfl, ?_⟩, rfl, ?_⟩
  · exact .more hexpr' (.stop ⟨rfl, rfl⟩)
  · rw [hbare', hbare]
    rfl

end Offside
