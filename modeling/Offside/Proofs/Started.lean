import Offside.Proofs.Grammar.Tallied
import Offside.Proofs.Scanner.Neighbours

/-!
# What becomes of a started rule

In a text that is accepted, a rule that has started at a keyword has made a node of the tree
(`exists_node_of_started`). The node is what starts at the keyword, its places apart
(`Expr.StartsAt`).

A ledger keeps account of it (`Ledger.starts`). From where the rule has started there is a debt of
one node, which the rule pays with the node that it makes. No node is lost later on.
-/

namespace Offside

open scoped Classical
open Grammar (standard)
open Phrase (Start)

variable {file : String} {last token : Token} {tokens rest after : List Token}

/-- The node is what a rule makes of the tokens, at any place. -/
def Expr.StartsAt (file : String) (tokens : List Token) (expr : Expr) : Prop :=
  ∃ start rest, Start file tokens start rest ∧ expr.stamp {} = start.stamp {}

/-- A rule that starts at a keyword makes a node that does more than hold others together. -/
theorem Phrase.Start.kind_of_keyword {expr : Expr} (h : Start file (token :: tokens) expr rest)
    (hkind : token.kind = .keyword) : expr.kind ∉ [.block, .arguments, .parameter] := by
  cases h with
  | literal h =>
    simp only [Token.literal?, hkind] at h
    split at h
    · cases h
      simp [Expr.kind]
    · split at h <;> cases h
      simp [Expr.kind]
  | reference hconstant =>
    rw [hkind] at hconstant
    cases hconstant
  | unit hopen | group hopen | arguments hopen =>
    rw [hkind] at hopen
    cases hopen
  | moduleDef | useDef | functionDef | ifElse | ifOnly => simp [Expr.kind]

theorem Expr.counts_startsAt (hkind : token.kind = .keyword) :
    Counts fun expr => decide (expr.StartsAt file (token :: after)) := by
  have hshape {expr : Expr} (h : expr.kind ∈ [.block, .arguments, .parameter]) :
      decide (expr.StartsAt file (token :: after)) = false := by
    refine decide_eq_false ?_
    rintro ⟨start, rest, hstart, heq⟩
    have hsame := congrArg kind heq
    rw [kind_stamp, kind_stamp] at hsame
    exact hstart.kind_of_keyword hkind (hsame ▸ h)
  exact {
    block _ := hshape (by simp [kind])
    arguments _ _ := hshape (by simp [kind])
    parameter _ := hshape (by simp [kind])
    stamp origin expr := by
      have hsame : (expr.stamp origin).StartsAt file (token :: after) ↔
          expr.StartsAt file (token :: after) := by
        rw [StartsAt, stamp_stamp]
        rfl
      exact decide_eq_decide.2 hsame }

/-! ## The ledger -/

/-- A run in which a rule may start at the token only where nodes are on record. -/
def Watch.starts (file : String) (last : Token) (tokens : List Token) (token : Token)
    (k : Nat) : Watch where
  file := file
  last := last
  tokens := tokens
  notes event := (∃ rule, event = .ruleStarted rule token) → 0 < k
  stops _ := False

theorem Watch.Holds.of_pos {k k' : Nat} {cursor : Cursor}
    (h : (Watch.starts file last tokens token k).Holds cursor) (hk : 0 < k → 0 < k') :
    (Watch.starts file last tokens token k').Holds cursor where
  sound := h.sound
  clean := h.clean
  suffix := h.suffix
  log event hevent hstarted := hk (h.log event hevent hstarted)
  stream delivery hdelivery event hevent hstarted :=
    hk (h.stream delivery hdelivery event hevent hstarted)

/-- Where a rule has started, its token is the first in view. -/
theorem Cursor.Sound.exists_view_of_starter? {cursor : Cursor} {rule : Starter}
    (h : cursor.Sound file last) (hrule : standard.starter? cursor.current = some rule) :
    ∃ others, cursor.view = cursor.current :: others := by
  have hcurrent := h.current_eq
  cases hview : cursor.view with
  | nil =>
    rw [hview, List.headD_nil] at hcurrent
    rw [hcurrent, Grammar.starter?_last h.isLast] at hrule
    cases hrule
  | cons first others =>
    rw [hview, List.headD_cons] at hcurrent
    exact ⟨others, by rw [hcurrent]⟩

/-- Where a rule has started at the token, there is a node that starts there. -/
noncomputable def Ledger.starts (file : String) (last : Token) {tokens after : List Token}
    {token : Token} (hkind : token.kind = .keyword)
    (hplace : ∀ after', token :: after' <:+ tokens → after' = after) : Ledger where
  test expr := decide (expr.StartsAt file (token :: after))
  counts := Expr.counts_startsAt hkind
  extension := 0
  holds k cursor := (Watch.starts file last tokens token k).Holds cursor
  made _ h := h.of_pos (by split <;> omega)
  advance h hrun := h.advance hrun
  note hevent h := h.note (by
    rintro ⟨rule, rfl⟩
    exact absurd trivial hevent)
  extended _ _ h := h.note (by
    rintro ⟨rule, heq⟩
    cases heq)
  started := by
    intro k depth cursor final rule start h hrule noted hrun hparse
    have hnoted {k' : Nat} (hholds : (Watch.starts file last tokens token k').Holds cursor)
        (hnew : cursor.current = token → 0 < k') :
        (Watch.starts file last tokens token k').Holds noted := by
      refine hholds.note ?_
      rintro ⟨rule', heq⟩
      cases heq
      exact hnew rfl
    by_cases htoken : cursor.current = token
    · -- The node that the rule has made is on record for what the rule is noted.
      obtain ⟨others, hview⟩ := h.sound.exists_view_of_starter? hrule
      have hsound : noted.Sound file last := h.sound.log _
      have hahead : noted.view = cursor.current :: others := hview
      have hstart : Start file noted.view start final.view :=
        Grammar.start_of_starter hsound hrule hahead hrun
      have hsuffix : cursor.view <:+ tokens := h.suffix
      rw [hview, htoken] at hsuffix
      rw [hahead, htoken, hplace others hsuffix] at hstart
      have hpos : 0 < start.count fun expr => decide (expr.StartsAt file (token :: after)) := by
        rw [Expr.count_eq, if_pos (decide_eq_true ⟨start, _, hstart, rfl⟩)]
        exact Nat.succ_pos _
      have hpaid : (Watch.starts file last tokens token (k + 1)).Holds cursor :=
        h.of_pos fun _ => Nat.succ_pos k
      have hmore := hparse (k + 1) (hnoted hpaid fun _ => Nat.succ_pos k)
      exact hmore.of_pos fun _ => Nat.add_pos_right k hpos
    · exact hparse k (hnoted h fun heq => absurd heq htoken)

/-! ## Whole texts -/

/-- In a text with a tree, a rule that has started at a keyword has made a node of it. -/
theorem exists_node_of_started {source rule : String} {name : Option String} {before : List Token}
    {block : Block Expr} (htokens : (tokenize source name).result = .ok (tokens ++ [last]))
    (hblock : (parse source name).result = .ok block)
    (hstarted : .ruleStarted rule token ∈ (parse source name).events)
    (hplace : tokens = before ++ token :: after) (hkind : token.kind = .keyword) :
    ∃ node ∈ (Expr.block block).nodes fun _ => false,
      node.StartsAt (name.getD Scanner.unknownFile) (token :: after) := by
  have hunique (after' : List Token) (hsuffix : token :: after' <:+ tokens) : after' = after := by
    obtain ⟨before', hplace'⟩ := hsuffix
    exact (Token.eq_of_place htokens (by rw [hkind]; rfl) hplace'.symm hplace).2
  obtain ⟨cursor, final, hcursor, hrun, hevents⟩ := exists_run_of_parse hblock
  have hholds : (Watch.starts (name.getD Scanner.unknownFile) last tokens token 0).Holds cursor := by
    refine Watch.holds_ofText ?_ htokens rfl hcursor
    rintro event hevent ⟨rule, rfl⟩
    exact absurd trivial hevent
  let l := Ledger.starts (name.getD Scanner.unknownFile) last hkind hunique
  have htallies : ParseM.Tallies l 0 standard.program _ := Grammar.tallies_program
  have hfinal : (Watch.starts (name.getD Scanner.unknownFile) last tokens token
      (0 + Expr.countAll l.test block.contents)).Holds final := htallies cursor block final hholds hrun
  rw [hevents, Array.mem_toList_iff] at hstarted
  have hpos := hfinal.log _ hstarted ⟨rule, rfl⟩
  rw [Nat.zero_add, ← l.counts.count_block] at hpos
  obtain ⟨node, hmem, htest⟩ := Expr.count_pos_iff.1 hpos
  exact ⟨node, hmem, of_decide_eq_true htest⟩

end Offside
