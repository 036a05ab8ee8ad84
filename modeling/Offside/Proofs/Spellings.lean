import Offside.Proofs.Expr.Equality
import Offside.Proofs.Faults
import Offside.Proofs.Relayout

/-!
# Places are no part of the grammar

Two texts whose tokens are spelled alike are parsed alike (`parse_spelled`): into equal trees, or to
faults of the same cause. The parser runs on both in lockstep (`Lockstep.onSpellings`): without faults
ahead both cursors have the next token, and it is spelled alike.
-/

namespace Offside

/-- Two texts are parsed alike: both have a tree, and the second is equal to the first, or both have a
fault of the same cause. -/
def ParsedAlike : Except Stop (Block Expr) → Except Stop (Block Expr) → Prop
  | .ok block, .ok block' => (block' == block) = true
  | .error (.fault fault), .error (.fault fault') => fault'.cause = fault.cause
  | _, _ => False

namespace Cursor

/-- The cursor comes from a text and has no faults ahead. -/
structure Sane (cursor : Cursor) : Prop where
  sound : cursor.Sound cursor.file cursor.endToken
  clean : cursor.Clean

variable {cursor cursor' : Cursor}

theorem Sane.log (h : cursor.Sane) (log : Array Event) : { cursor with log }.Sane :=
  ⟨h.sound.log log, h.clean⟩

/-- There is always a next token. -/
theorem Sane.exists_advance (h : cursor.Sane) :
    ∃ after, ParseM.advance cursor = .ok () after ∧ after.Sane ∧ after.view = cursor.view.tail := by
  obtain ⟨after, hrun⟩ := ParseM.exists_advance h.clean
  obtain ⟨hleads, hview⟩ := ParseM.leads_of_advance h.sound hrun
  have hsound := hleads.sound
  rw [← hsound.file_eq, ← hsound.endToken_eq] at hsound
  exact ⟨after, hrun, ⟨hsound, hleads.clean_iff.2 h.clean⟩, hview⟩

theorem sane_ofText {source : String} {file : Option String} {log : Array Event}
    {tokens : List Token} (hcursor : (Cursor.ofText source file log).result = .ok cursor)
    (htokens : (tokenize source file).result = .ok tokens) :
    cursor.Sane ∧ tokens = cursor.view ++ [cursor.endToken] := by
  obtain ⟨hsound, hiff⟩ := sound_ofText hcursor
  obtain ⟨hclean, heq⟩ := (hiff _).1 htokens
  obtain ⟨current, -, rfl⟩ := ofText_eq_ok_iff.1 hcursor
  exact ⟨⟨hsound, hclean⟩, heq⟩

theorem Sane.spelling_endToken (h : cursor.Sane) : cursor.endToken.spelling = (.endOfText, "") := by
  rw [Token.spelling, h.sound.isLast.kind_eq, h.sound.isLast.value_eq]

/-- Where the tokens ahead are spelled alike, so is the current one. -/
theorem Sane.spelling_current (h : cursor.Sane) (h' : cursor'.Sane)
    (hview : cursor'.view.map Token.spelling = cursor.view.map Token.spelling) :
    cursor'.current.spelling = cursor.current.spelling := by
  rw [h.sound.current_eq, h'.sound.current_eq]
  have hlast : cursor'.endToken.spelling = cursor.endToken.spelling :=
    h'.spelling_endToken.trans h.spelling_endToken.symm
  revert hview
  cases cursor.view <;> cases cursor'.view <;> intro hview
  · exact hlast
  · cases hview
  · cases hview
  · exact (List.cons.inj hview).1

end Cursor

theorem Token.exists_moved {token token' : Token} (h : token'.spelling = token.spelling) :
    ∃ line column, token' = token.moved line column := by
  obtain ⟨hkind, hvalue⟩ := Prod.mk.inj h
  exact ⟨token'.line, token'.column, by rw [moved, ← hkind, ← hvalue]⟩

/-- Runs on texts whose tokens are spelled alike. Places are not compared. -/
def Lockstep.onSpellings : Lockstep where
  cursors cursor cursor' := cursor.Sane ∧ cursor'.Sane ∧
    cursor'.view.map Token.spelling = cursor.view.map Token.spelling
  tokens token token' := token'.spelling = token.spelling ∧ (token.isEnd → token.value = "")
  stops fault _ fault' _ := fault'.cause = fault.cause
  place _ := {}
  place' _ := {}
  moved h := Token.exists_moved h.1
  regular h := h.2
  current h := ⟨h.1.spelling_current h.2.1 h.2.2, h.1.sound.current.2⟩
  length_view h := by simpa using congrArg List.length h.2.2
  advance := by
    rintro cursor cursor' ⟨h, h', hview⟩
    obtain ⟨after, hrun, hafter, htail⟩ := h.exists_advance
    obtain ⟨after', hrun', hafter', htail'⟩ := h'.exists_advance
    rw [hrun, hrun']
    refine ⟨⟨hafter, hafter', ?_⟩, htail⟩
    rw [htail, htail', List.map_tail, List.map_tail, hview]
  fault _ _ _ := rfl
  note h _ _ := ⟨h.1.log _, h.2.1.log _, h.2.2⟩
  place_eq _ _ := rfl

variable {source source' : String} {file file' : Option String} {tokens tokens' : List Token}

/-- The numbers of a parsed tree are equal to themselves. -/
theorem reflexive_of_parse {block : Block Expr} (h : (parse source file).result = .ok block) :
    ∀ leaf ∈ Expr.leavesBlock block, leaf.Reflexive := by
  obtain ⟨tokens, last, htokens, -, hprogram⟩ := parse_eq_ok_iff.1 h
  obtain ⟨origin, contents⟩ := block
  have hleaves := hprogram.leaves fun token hmem => ((inView_of_tokenize htokens).1 token hmem).proper
  intro leaf hleaf
  have hmem : some leaf ∈ (Expr.leavesAll contents).map some := List.mem_map_of_mem hleaf
  rw [← hleaves] at hmem
  obtain ⟨token, -, htoken⟩ := List.mem_map.1 hmem
  exact Token.reflexive_of_leaf? htoken

/-- What a text is parsed to depends on how its tokens are spelled. -/
theorem parse_spelled (h : (tokenize source file).result = .ok tokens)
    (h' : (tokenize source' file').result = .ok tokens')
    (hspelling : tokens'.map Token.spelling = tokens.map Token.spelling) :
    ParsedAlike (parse source file).result (parse source' file').result := by
  obtain ⟨cursor, hcursor⟩ := Cursor.exists_ofText #[.fileOpened (file.getD Scanner.unknownFile)] h
  obtain ⟨cursor', hcursor'⟩ :=
    Cursor.exists_ofText #[.fileOpened (file'.getD Scanner.unknownFile)] h'
  obtain ⟨hsane, rfl⟩ := Cursor.sane_ofText hcursor h
  obtain ⟨hsane', rfl⟩ := Cursor.sane_ofText hcursor' h'
  rw [List.map_append, List.map_append] at hspelling
  have hview := (List.append_inj' hspelling rfl).1
  have hagrees := Grammar.standard_agrees.program (P := ParseM.anyToken) (s := .onSpellings)
    (n := cursor.view.length + 1) cursor cursor' ⟨hsane, hsane', hview⟩ (Nat.lt_succ_self _) trivial
  have hresult := parse_result source file
  rw [hcursor] at hresult
  rw [parse_result source', hcursor']
  dsimp only at hresult ⊢
  generalize Grammar.standard.program cursor = result at hagrees hresult
  generalize Grammar.standard.program cursor' = result' at hagrees ⊢
  rw [hresult]
  cases result <;> cases result'
  case ok.ok =>
    obtain ⟨-, -, -, hsame⟩ := hagrees
    have hbare := congrArg Expr.bareBlock hsame
    rw [Expr.bareBlock_relocate, Expr.bareBlock_relocate] at hbare
    exact Expr.beq_of_bareBlock hbare.symm (reflexive_of_parse hresult)
  case ok.error => exact hagrees.elim
  case error.ok stop _ _ _ => cases stop <;> exact hagrees.elim
  case error.error stop _ stop' _ => cases stop <;> cases stop' <;> exact hagrees

end Offside
