import Offside.Proofs.Grammar.Standard

/-!
# Programs are phrases

`parse_eq_ok_iff` says what `parse` accepts: a text that has tokens, all of which spell one
statement after another. The statements are those of the block that it answers.
-/

namespace Offside

open Phrase

variable {source : String} {file : Option String}

theorem exists_of_isOk {ε α : Type} {result : Except ε α} (h : result.isOk = true) :
    ∃ a, result = .ok a := by
  cases result with
  | ok a => exact ⟨a, rfl⟩
  | error e => cases h

theorem eq_ok_of_toOption {ε α : Type} {result : Except ε α} {a : α}
    (h : result.toOption = some a) : result = .ok a := by
  cases result with
  | ok b => exact congrArg Except.ok (Option.some.inj h)
  | error e => cases h

theorem mapM_result_eq_ok_iff {deliveries : List Delivery} {tokens : List Token} :
    deliveries.mapM Delivery.result = .ok tokens ↔
      (∀ delivery ∈ deliveries, ∃ token, delivery.result = .ok token) ∧
        tokens = Delivery.tokens deliveries := by
  induction deliveries generalizing tokens with
  | nil => simp [Delivery.tokens, pure, Except.pure, eq_comm]
  | cons delivery deliveries ih =>
    rw [List.mapM_cons, Delivery.tokens, List.forall_mem_cons]
    cases hfirst : delivery.result with
    | error fault => simp [bind, Except.bind]
    | ok token =>
      cases hrest : deliveries.mapM Delivery.result with
      | error fault =>
        have hnone : ¬ ∀ delivery ∈ deliveries, ∃ token, delivery.result = .ok token := by
          intro hall
          have := ih.2 ⟨hall, rfl⟩
          rw [hrest] at this
          cases this
        simp [bind, Except.bind, hnone]
      | ok others =>
        obtain ⟨hall, rfl⟩ := ih.1 hrest
        simp [bind, Except.bind, pure, Except.pure, eq_comm]
        exact fun _ => hall

theorem Delivery.tokens_append {deliveries others : List Delivery}
    (h : ∀ delivery ∈ deliveries, ∃ token, delivery.result = .ok token) :
    tokens (deliveries ++ others) = tokens deliveries ++ tokens others := by
  induction deliveries with
  | nil => rfl
  | cons delivery deliveries ih =>
    obtain ⟨⟨token, htoken⟩, hrest⟩ := List.forall_mem_cons.1 h
    simp [tokens, htoken, ih hrest]

/-- The tokens of a text before the end token are those of the deliveries ahead. -/
theorem tokens_of_tokenize {tokens : List Token} {last : Token}
    (h : (tokenize source file).result = .ok (tokens ++ [last])) :
    tokens = Delivery.tokens (Token.Stream.ofText source file).ahead := by
  obtain ⟨hall, heq⟩ := mapM_result_eq_ok_iff.1 h
  rw [List.forall_mem_append, List.forall_mem_singleton] at hall
  obtain ⟨hahead, lastToken, hlast⟩ := hall
  rw [Delivery.tokens_append hahead] at heq
  simp only [Delivery.tokens, hlast] at heq
  exact (List.append_inj' heq rfl).1

/-! ## The first cursor of a text -/

theorem Cursor.ofText_eq_ok_iff {log : Array Event} {cursor : Cursor} :
    (Cursor.ofText source file log).result = .ok cursor ↔
      ∃ current, (Token.Stream.ofText source file).next.1.result = .ok current ∧
        cursor = {
          file := file.getD Scanner.unknownFile
          current
          stream := (Token.Stream.ofText source file).next.2
          log := log ++ (Token.Stream.ofText source file).next.1.events } := by
  unfold Cursor.ofText
  dsimp only
  cases (Token.Stream.ofText source file).next.1.result with
  | error fault => simp [Except.map]
  | ok current => simp [Except.map, eq_comm]

/-- The first cursor of a text comes from its stream, and there are no faults ahead of it exactly
where the text has tokens: those in its view and the end token. -/
theorem Cursor.sound_ofText {log : Array Event} {cursor : Cursor}
    (h : (Cursor.ofText source file log).result = .ok cursor) :
    cursor.Sound (file.getD Scanner.unknownFile) cursor.endToken ∧
      ∀ tokens, (tokenize source file).result = .ok tokens ↔
        cursor.Clean ∧ tokens = cursor.view ++ [cursor.endToken] := by
  obtain ⟨current, hresult, rfl⟩ := Cursor.ofText_eq_ok_iff.1 h
  have hregular := Token.Stream.regular_ofText source file
  have htokens (tokens : List Token) : (tokenize source file).result = .ok tokens ↔ _ :=
    mapM_result_eq_ok_iff
  generalize Token.Stream.ofText source file = stream at hresult hregular htokens
  obtain ⟨ahead, last⟩ := stream
  cases ahead with
  | nil =>
    have hend : current.isEnd = true := by
      simpa [Delivery.isLast, show last.result = .ok current from hresult] using hregular.last.2
    refine ⟨⟨rfl, rfl, hregular, hregular.last.1 current hresult, fun _ => ⟨rfl, hresult⟩⟩, ?_⟩
    intro tokens
    rw [htokens]
    simp only [Token.Stream.next] at hresult ⊢
    simp [Clean, view, endToken, hend, hresult, Delivery.tokens]
  | cons delivery ahead =>
    have hmem : delivery ∈ delivery :: ahead := List.mem_cons_self
    simp only [Token.Stream.next] at hresult ⊢
    have hend : current.isEnd = false := by
      simpa [Delivery.isLast, hresult] using (hregular.ahead delivery hmem).2
    refine ⟨⟨rfl, rfl, ⟨fun later hlater => hregular.ahead later (List.mem_cons_of_mem _ hlater),
      hregular.last⟩, (hregular.ahead delivery hmem).1 current hresult, fun h => ?_⟩, ?_⟩
    · rw [hend] at h
      cases h
    · intro tokens
      rw [htokens]
      have hclean : (∀ later ∈ delivery :: ahead ++ [last], ∃ token, later.result = .ok token) ↔
          ∀ later ∈ last :: ahead, ∃ token, later.result = .ok token := by
        simp [hresult, or_imp, forall_and, and_comm]
      rw [hclean, Clean, view]
      refine and_congr_right fun hall => ?_
      obtain ⟨⟨lastToken, hlast⟩, hahead⟩ := List.forall_mem_cons.1 hall
      rw [List.cons_append, Delivery.tokens, Delivery.tokens_append hahead]
      simp [hresult, hend, endToken, hlast, Delivery.tokens]

theorem Cursor.exists_ofText (log : Array Event) {tokens : List Token}
    (h : (tokenize source file).result = .ok tokens) :
    ∃ cursor, (Cursor.ofText source file log).result = .ok cursor := by
  have hall := (mapM_result_eq_ok_iff.1 h).1
  obtain ⟨current, hcurrent⟩ := hall (Token.Stream.ofText source file).next.1 (by
    unfold Token.Stream.next
    split
    · rename_i hahead
      simp [hahead]
    · simp)
  exact ⟨_, ofText_eq_ok_iff.2 ⟨current, hcurrent, rfl⟩⟩

/-- The tokens of a text before the end token are proper, and none of them is an end token. -/
theorem inView_of_tokenize {tokens : List Token} {last : Token}
    (h : (tokenize source file).result = .ok (tokens ++ [last])) :
    (∀ token ∈ tokens, token.InView) ∧ last.IsLast := by
  obtain ⟨cursor, hcursor⟩ := Cursor.exists_ofText #[] h
  obtain ⟨hsound, htokens⟩ := Cursor.sound_ofText hcursor
  obtain ⟨-, heq⟩ := (htokens _).1 h
  obtain ⟨rfl, hlast⟩ := List.append_inj' heq rfl
  cases hlast
  exact ⟨hsound.view_inView, hsound.isLast⟩

/-- What a parser parses is settled by where it begins among the tokens of a text. -/
theorem unique_of_tokenize {α : Type} {m : ParseM α} {p : Phrase α} {a a' : α} {last : Token}
    {tokens rest middle middle' : List Token}
    (h : (tokenize source file).result = .ok (tokens ++ [last]))
    (hm : ParseM.Parses (file.getD Scanner.unknownFile) last (tokens.length + 1) m p)
    (hsuffix : rest <:+ tokens) (hp : p rest a middle) (hp' : p rest a' middle') :
    a' = a ∧ middle' = middle := by
  obtain ⟨start, hstart⟩ := Cursor.exists_ofText #[] h
  obtain ⟨hsound, htokens⟩ := Cursor.sound_ofText hstart
  obtain ⟨hclean, heq⟩ := (htokens _).1 h
  obtain ⟨rfl, hlast⟩ := List.append_inj' heq rfl
  cases hlast
  obtain ⟨cursor, hcursor, hclean, rfl⟩ := ParseM.exists_cursor_of_suffix hsound hclean hsuffix
  exact hm.unique hcursor hclean (Nat.lt_succ_of_le hsuffix.length_le) hp hp'

/-- At the end of its view a cursor has no faults ahead. -/
theorem Cursor.Sound.clean_of_view {name : String} {last : Token} {cursor : Cursor}
    (h : cursor.Sound name last) (hview : cursor.view = []) : cursor.Clean := by
  have hend : cursor.current.isEnd = true := by
    unfold view at hview
    split at hview
    · assumption
    · cases hview
  obtain ⟨hahead, hlast⟩ := h.ended hend
  intro delivery hmem
  rw [hahead, List.mem_singleton] at hmem
  exact ⟨_, hmem ▸ hlast⟩

/-! ## Whole texts -/

/-- A text is parsed from the cursor on its first token. -/
theorem Grammar.parse_result (grammar : Grammar) (source : String) (file : Option String) :
    (grammar.parse source file).result =
      match (Cursor.ofText source file #[.fileOpened (file.getD Scanner.unknownFile)]).result with
      | .error fault => .error (.fault fault)
      | .ok cursor =>
        match grammar.program cursor with
        | .ok block _ => .ok block
        | .error stop _ => .error stop := by
  unfold Grammar.parse
  dsimp only [EStateM.run]
  generalize (Cursor.ofText source file _).result = start
  cases start with
  | error fault => rfl
  | ok cursor =>
    dsimp only
    cases grammar.program cursor <;> rfl

theorem parse_result (source : String) (file : Option String) : (parse source file).result =
    match (Cursor.ofText source file #[.fileOpened (file.getD Scanner.unknownFile)]).result with
    | .error fault => .error (.fault fault)
    | .ok cursor =>
      match Grammar.standard.program cursor with
      | .ok block _ => .ok block
      | .error stop _ => .error stop :=
  Grammar.standard.parse_result source file

/-- What is read of a text from the cursor on its first token. -/
theorem parse_of_ofText {cursor : Cursor}
    (h : (Cursor.ofText source file #[.fileOpened (file.getD Scanner.unknownFile)]).result =
      .ok cursor) : parse source file =
    match Grammar.standard.program cursor with
    | .ok block after => { result := .ok block, events := after.log.toList }
    | .error stop after => { result := .error stop, events := after.log.toList } := by
  unfold parse Grammar.parse
  dsimp only [EStateM.run]
  generalize (Cursor.ofText source file _).result = start at h ⊢
  subst h
  rfl

/-- A text with a tree was parsed from its first token, and the events are the log of that run. -/
theorem exists_run_of_parse {block : Block Expr} (h : (parse source file).result = .ok block) :
    ∃ cursor after,
      (Cursor.ofText source file #[.fileOpened (file.getD Scanner.unknownFile)]).result = .ok cursor ∧
      Grammar.standard.program cursor = .ok block after ∧
      (parse source file).events = after.log.toList := by
  cases hstart : (Cursor.ofText source file #[.fileOpened (file.getD Scanner.unknownFile)]).result with
  | error fault =>
    rw [parse_result, hstart] at h
    cases h
  | ok cursor =>
    rw [parse_of_ofText hstart] at h ⊢
    cases hrun : Grammar.standard.program cursor with
    | ok block' after =>
      rw [hrun] at h
      cases h
      exact ⟨cursor, after, rfl, hrun, rfl⟩
    | error stop after =>
      rw [hrun] at h
      cases h

/-- A text is accepted if and only if it has tokens, all of them ordinary ones but the last, that
spell a program; the answer is the block of its statements. -/
theorem parse_eq_ok_iff {block : Block Expr} :
    (parse source file).result = .ok block ↔ ∃ tokens last,
      (tokenize source file).result = .ok (tokens ++ [last]) ∧ block.origin = {} ∧
        Program (file.getD Scanner.unknownFile) tokens block.contents [] := by
  rw [parse_result]
  split
  · rename_i fault hstart
    refine ⟨fun h => by simp at h, fun h => ?_⟩
    obtain ⟨tokens, last, htokens, -⟩ := h
    obtain ⟨cursor, hcursor⟩ := Cursor.exists_ofText _ htokens
    rw [hstart] at hcursor
    cases hcursor
  · rename_i cursor hstart
    obtain ⟨hsound, htokens⟩ := Cursor.sound_ofText hstart
    constructor
    · intro h
      split at h
      · rename_i block' after hrun
        cases h
        obtain ⟨hleads, hprogram, horigin⟩ := (Grammar.parses_program (n := 0)).sound hsound hrun
        obtain ⟨_, -, hview⟩ := hprogram.exists_stop
        rw [hview] at hprogram
        have hclean := hleads.clean_iff.1 (hleads.sound.clean_of_view hview)
        exact ⟨cursor.view, cursor.endToken, (htokens _).2 ⟨hclean, rfl⟩, horigin, hprogram⟩
      · cases h
    · intro h
      obtain ⟨tokens, last, hresult, horigin, hprogram⟩ := h
      obtain ⟨hclean, heq⟩ := (htokens _).1 hresult
      obtain ⟨rfl, -⟩ := List.append_inj' heq rfl
      obtain ⟨after, hrun, -⟩ := Grammar.parses_program.complete hsound hclean
        (Nat.lt_succ_self _) ⟨hprogram, horigin⟩
      rw [show Grammar.standard.program cursor = .ok block after from hrun]

end Offside
