import Offside.Proofs.Phrase.Shifted
import Offside.Proofs.Scanner.Deliveries

/-!
# Phrases before a line that closes all blocks

Where the tokens of a text end, the open blocks end with them. `Shift.closing` puts a line in that
place instead which closes the blocks, and tokens of statements after it. Nothing of them goes on
with what stands before (`closes_closing`), because no statement begins with a token that could
(`quiet_of_program`).
-/

namespace Offside

open Token (Shift Shifted)

/-! ## Quiet tokens -/

theorem Token.IsBreak.quiet {token : Token} (h : token.IsBreak) : token.Quiet := by
  have hkind : token.kind ≠ .operator ∧ token.kind ≠ .keyword := by
    rcases h with ⟨hkind, -⟩ | ⟨hkind | hkind, -⟩ <;> simp [hkind]
  have hvalue : token.value = "\n" ∨ token.value = "" := by
    rcases h with ⟨-, hvalue⟩ | ⟨-, hvalue⟩
    · exact .inl hvalue
    · exact .inr hvalue
  refine ⟨?_, ?_, ?_⟩
  · rcases hvalue with hvalue | hvalue <;>
      simp [Token.power, Token.binaryPower?, hkind.1, hvalue]
  · rcases hvalue with hvalue | hvalue <;> simp [hvalue]
  · simp [Token.isKeyword, hkind.2]

namespace Phrase

/-- No token that starts an expression goes on with one. -/
theorem quiet_of_start {file : String} {token : Token} {tokens rest : List Token} {expr : Expr}
    (h : Start file (token :: tokens) expr rest) (hproper : token.Proper) : token.Quiet := by
  have hkind := Grammar.kind_of_start h
  have hoperator : token.kind ≠ .operator := by
    intro heq
    simp [heq] at hkind
  have hspecial : token.kind ≠ .special := by
    intro heq
    simp [heq] at hkind
  refine ⟨?_, hproper.value_ne ("::", .special) hspecial, ?_⟩
  · have hequals := hproper.value_ne ("=", .special) hspecial
    have harrow := hproper.value_ne ("->", .special) hspecial
    simp [Token.power, Token.binaryPower?, hoperator, hequals, harrow]
  · intro helse
    obtain ⟨hkeyword, hvalue⟩ := Token.isKeyword_iff.1 helse
    cases h with
    | literal h => simp [Token.literal?, hkeyword, hvalue] at h
    | reference hkind => simp [hkeyword] at hkind
    | unit hopen | group hopen | arguments hopen => simp [hkeyword] at hopen
    | moduleDef h | useDef h | functionDef h | ifElse h | ifOnly h =>
      simp [Token.isKeyword, hvalue] at h

theorem quiet_of_program {file : String} {tokens : List Token} {contents : List Expr}
    (h : Program file tokens contents []) (hproper : Proper tokens)
    (hnewline : Ahead (¬ ·.isNewline = true) tokens) : Ahead Token.Quiet tokens := by
  rw [← program_dropWhile_iff, dropWhile_eq_self hnewline] at h
  have hskip : tokens.dropWhile Token.isNewline = tokens := dropWhile_eq_self hnewline
  obtain ⟨hstop⟩ | ⟨hexpr, -⟩ := h
  · rw [← hskip, hstop.1, hstop.2]
    exact ahead_nil
  · obtain ⟨hskip', hstart, -⟩ := hexpr
    rw [hskip] at hskip'
    rw [hskip'] at hproper ⊢
    exact ahead_cons.2 (quiet_of_start hstart hproper.head)

end Phrase

/-! ## Closing blocks -/

/-- An indent token leads one block further in, and an outdent token one block out. -/
structure Token.Nests (depth : Nat) (token : Token) (depth' : Nat) : Prop where
  indent : token.kind = .indent → token.value = "" ∧ depth' = depth + 1
  outdent : token.kind = .outdent → token.value = "" ∧ depth = depth' + 1
  plain : token.kind ≠ .indent → token.kind ≠ .outdent → depth' = depth

/-- The tokens lead from one depth of blocks to another. -/
inductive Token.Leads : Nat → List Token → Nat → Prop
  | nil {depth : Nat} : Leads depth [] depth
  | cons {depth depth' depth'' : Nat} {token : Token} {tokens : List Token}
    (h : token.Nests depth depth') (hrest : Leads depth' tokens depth'') :
    Leads depth (token :: tokens) depth''

/-- The tokens stand where they stood. After them come the tokens of a line that closes all blocks,
and the tokens `more`. -/
def Token.Shift.closing (file : String) (more : List Token) : Shift Nat where
  file := file
  file' := file
  place := id
  place' := id
  step := Token.Nests
  inside := Nat.succ
  ends depth tokens' := ∃ newlines outdents, tokens' = newlines ++ (outdents ++ more) ∧
    (∀ token ∈ newlines, token.IsBreak ∧ token.kind = .newline) ∧
      (∀ token ∈ outdents, token.IsBreak ∧ token.kind = .outdent) ∧ outdents.length = depth
  plain hplain hstep := by
    refine hstep.plain (fun hkind => ?_) fun hkind => ?_
    · exact hplain.elim (absurd (hstep.indent hkind).1) fun hne => hne.1 hkind
    · exact hplain.elim (absurd (hstep.outdent hkind).1) fun hne => hne.2 hkind
  indent hkind hstep := (hstep.indent hkind).2
  outdent hkind hstep := (Nat.succ.inj (hstep.outdent hkind).2).symm

theorem Token.Shifted.closing {file : String} {early early' late late' more : List Token}
    {depth depth' : Nat} (h : Shifted (.elsewhere file file id id []) () early early')
    (hleads : Leads depth early depth') (hlate : Shifted (.closing file more) depth' late late') :
    Shifted (.closing file more) depth (early ++ late) (early' ++ late') := by
  generalize () = blocks at h
  induction h generalizing depth with
  | nil hnil =>
    cases hleads
    rw [show _ = [] from hnil]
    exact hlate
  | cons column _ hplace _ ih =>
    obtain _ | ⟨hnests, hleads⟩ := hleads
    exact .cons column hnests hplace (ih hleads)

namespace Phrase

variable {file : String} {more : List Token}

/-- Newline tokens do not matter in the line that closes the blocks. -/
theorem dropWhile_newlines {newlines others : List Token}
    (hnewlines : ∀ token ∈ newlines, token.IsBreak ∧ token.kind = .newline)
    (hothers : Ahead (¬ ·.isNewline = true) others) :
    (newlines ++ others).dropWhile Token.isNewline = others := by
  have hall : ∀ token ∈ newlines, token.isNewline = true :=
    fun token hmem => beq_iff_eq.2 (hnewlines token hmem).2
  rw [List.dropWhile_append_of_pos hall, dropWhile_eq_self hothers]

theorem closes_closing (hquiet : Ahead Token.Quiet more)
    (hnewline : Ahead (¬ ·.isNewline = true) more) : Closes (.closing file more) := by
  have hothers {outdents : List Token}
      (houtdents : ∀ token ∈ outdents, token.IsBreak ∧ token.kind = .outdent) :
      Ahead (¬ ·.isNewline = true) (outdents ++ more) := by
    cases outdents with
    | nil => exact hnewline
    | cons token outdents =>
      have hkind := (houtdents token List.mem_cons_self).2
      exact ahead_cons.2 (by simp [Token.isNewline, hkind])
  constructor <;> rintro depth _ ⟨newlines, outdents, rfl, hnewlines, houtdents, hlength⟩
  case quiet =>
    cases newlines with
    | cons token => exact ahead_cons.2 (hnewlines token List.mem_cons_self).1.quiet
    | nil =>
      cases outdents with
      | cons token => exact ahead_cons.2 (houtdents token List.mem_cons_self).1.quiet
      | nil => exact hquiet
  case skip =>
    rw [dropWhile_newlines hnewlines (hothers houtdents)]
    exact ⟨[], outdents, rfl, by simp, houtdents, hlength⟩
  case past =>
    cases newlines with
    | nil =>
      rw [List.nil_append, pastNewline_eq_self (hothers houtdents)]
      exact ⟨[], outdents, rfl, by simp, houtdents, hlength⟩
    | cons token newlines =>
      obtain ⟨⟨-, hkind⟩, hnewlines⟩ := List.forall_mem_cons.1 hnewlines
      have hpast : token.isNewline = true := beq_iff_eq.2 hkind
      rw [List.cons_append, pastNewline, if_pos hpast]
      exact ⟨newlines, outdents, rfl, hnewlines, houtdents, hlength⟩
  case outdent =>
    cases newlines with
    | cons token =>
      exact ahead_cons.2 (.inr (beq_iff_eq.2 (hnewlines token List.mem_cons_self).2))
    | nil =>
      cases outdents with
      | cons token => exact ahead_cons.2 (.inl (houtdents token List.mem_cons_self).2)
      | nil => cases hlength
  case tail =>
    rw [dropWhile_newlines hnewlines (hothers houtdents)]
    cases outdents with
    | nil => cases hlength
    | cons token outdents =>
      exact ⟨[], outdents, rfl, by simp, (List.forall_mem_cons.1 houtdents).2, Nat.succ.inj hlength⟩

end Phrase

end Offside
