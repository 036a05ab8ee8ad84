import Offside.Proofs.Cursor.Watch
import Offside.Proofs.Program

/-!
# Watched runs of the grammar

The parsers of the language note rules in two places: where a rule starts an expression, and where
one extends it. A watch that allows these (`Watch.Admits`) allows all that is noted of a text
without faults (`Watch.Admits.events_of_parse`). A rule that starts may also be of the kind that the
run does not survive.
-/

namespace Offside

open ParseM (Keeps anyTokens bind_of_ok bind_of_error)
open ParseM.Keeps

variable {w : Watch} {n : Nat} {P : List Token → Prop}

/-! ## Types -/

namespace TypeExpr

theorem keeps_parseNamed : Keeps w n P parseNamed := by
  rw [parseNamed_eq]
  refine bind (take _) fun first =>
    bind (loop (fun path => bind peek fun token => ?_) _) fun path => pure _
  split
  · exact bind (takeNext _) fun _ => pure _
  · exact pure _

variable {inner : ParseM TypeExpr} (h : Keeps w n anyTokens inner)

include h

theorem keeps_parseEntry : Keeps w n P (parseEntry inner) := by
  refine bind peek fun token => ?_
  split
  · exact bind consume fun name => bind (take _) fun _ => bind h fun _ => pure _
  · exact bind h fun _ => pure _

theorem keeps_parseParams : Keeps w n P (parseParams inner) := by
  refine bind peek fun token => ?_
  split
  · exact bind advance fun _ => items h
  · split
    · exact bind h fun _ => pure _
    · exact pure _

theorem keeps_parseFunction : Keeps w n P (parseFunction inner) := by
  refine bind advance fun _ => bind (keeps_parseParams h) fun params => bind peek fun token => ?_
  split
  · exact bind advance fun _ => bind h fun _ => pure _
  · exact pure _

theorem keeps_parseStep : Keeps w n P (parseStep inner) := by
  refine bind peek fun token => ?_
  split
  · exact bind advance fun _ => bind (items (keeps_parseEntry h)) fun _ => pure _
  · split
    · exact bind (takeNext _) fun _ => bind h fun _ => pure _
    · split
      · exact keeps_parseFunction h
      · exact keeps_parseNamed

omit h

theorem keeps_parseWithin (depth : Nat) : Keeps w n P (parseWithin depth) := by
  induction depth generalizing P with
  | zero => exact throw _
  | succ depth ih => exact keeps_parseStep ih

theorem keeps_parse : Keeps w n P parse :=
  getBudget fun bound => keeps_parseWithin bound

end TypeExpr

/-! ## Rules -/

/-- The parser of expressions notes only what it may. -/
def ExprParser.Keeps (w : Watch) (n : Nat) (inner : ExprParser) : Prop :=
  ∀ floor, ParseM.Keeps w n anyTokens (inner floor)

theorem ExprParser.Keeps.required {inner : ExprParser} (h : inner.Keeps w n) (floor : Power) :
    ParseM.Keeps w n P (inner.required floor) := by
  refine bind (h floor).any fun found => ?_
  cases found with
  | some expr => exact pure expr
  | none => exact fail _

namespace Grammar

theorem keeps_primary : Keeps w n P primary := by
  refine bind consume fun token => ?_
  split
  · exact pure _
  · split
    · exact pure _
    · exact failAt _ _
  · split
    · exact pure _
    · exact failAt _ _
  · exact pure _
  · exact pure _
  · exact failAt _ _

theorem keeps_scopedReference : Keeps w n P scopedReference := by
  rw [scopedReference_eq]
  refine bind consume fun first => loop (fun modules => bind peek fun token => ?_) _
  split
  · refine bind advance fun _ => bind peek fun token => ?_
    split
    · exact bind consume fun _ => pure _
    · exact bind (take _) fun _ => pure _
  · exact fail _

theorem keeps_moduleName : Keeps w n P moduleName :=
  bind (take _) fun _ => pure _

theorem keeps_useSegment : Keeps w n P useSegment := by
  rw [useSegment_eq]
  refine bind peek fun token => ?_
  split
  · exact bind advance fun _ => bind (items keeps_moduleName) fun _ => pure _
  · exact bind (take _) fun _ => pure _

theorem keeps_useDef : Keeps w n P useDef := by
  rw [useDef_eq]
  refine bind advance fun _ => bind (take _) fun first =>
    bind (loop (fun path => bind peek fun token => ?_) _) fun _ => pure _
  split
  · exact bind advance fun _ => bind keeps_useSegment fun _ => pure _
  · exact pure _

theorem keeps_parameter : Keeps w n P parameter :=
  bind (take _) fun _ => bind (take _) fun _ => bind TypeExpr.keeps_parse fun _ => pure _

theorem keeps_parameters : Keeps w n P parameters := by
  refine bind peek fun token => ?_
  split
  · exact bind keeps_parameter fun _ => pure _
  · split
    · exact bind advance fun _ => items keeps_parameter
    · exact pure _

theorem keeps_resultType : Keeps w n P resultType := by
  refine bind peek fun token => ?_
  split
  · exact bind advance fun _ => map some TypeExpr.keeps_parse
  · exact pure _

section

variable {inner : ExprParser} (h : inner.Keeps w n)

include h

theorem keeps_grouping : Keeps w (n + 1) (· ≠ []) (grouping inner) := by
  rw [grouping_eq]
  refine next (bind peek fun token => ?_)
  split
  · exact bind advance fun _ => pure _
  · refine bind (h.required .lowest) fun first => bind (expectDelimiter _ _) fun _ =>
      bind peek fun token => ?_
    split
    · exact bind advance fun _ => pure _
    · refine bind (loop (fun args => bind peek fun token => ?_) _) fun args =>
        bind advance fun _ => pure _
      split
      · exact pure _
      · exact bind advance fun _ => bind (h.required .lowest) fun next =>
          bind (expectDelimiter _ _) fun _ => pure _

theorem keeps_binary (left : Expr) (power : Power) :
    Keeps w (n + 1) (· ≠ []) (binary inner left power) :=
  consumeThen fun _ => bind (h.required power) fun _ => pure _

theorem keeps_assignment (left : Expr) (power : Power) :
    Keeps w (n + 1) (· ≠ []) (assignment inner left power) :=
  next (bind (h.required .lowest) fun _ => pure _)

theorem keeps_call (left : Expr) (power : Power) :
    Keeps w (n + 1) (· ≠ []) (call inner left power) := by
  rw [call_eq]
  exact next (bind (h.required power) fun _ => pure _)

theorem keeps_body (trailing : Bool) : Keeps w n P (body inner trailing) := by
  refine bind skipNewlines fun _ => bind peek fun token => ?_
  split
  · have hstatements : Keeps w n anyTokens (statements inner) := by
      rw [statements_eq]
      refine bind (loop (fun found => bind skipNewlines fun _ => bind peek fun token => ?_) _)
        fun _ => pure _
      split
      · exact pure _
      · exact bind (h.required .lowest) fun _ => pure _
    refine bind advance fun _ => bind hstatements fun contents => bind advance fun _ =>
      bind peek fun token => ?_
    split
    · exact bind advance fun _ => pure _
    · exact pure _
  · refine bind (h .lowest) fun found => ?_
    cases found with
    | some expr => exact pure expr
    | none => exact fail _

theorem keeps_moduleDef : Keeps w (n + 1) (· ≠ []) (moduleDef inner) :=
  takeNextThen _ fun _ => bind (keeps_body h true) fun _ => pure _

theorem keeps_functionDef : Keeps w (n + 1) (· ≠ []) (functionDef inner) := by
  rw [functionDef_eq]
  exact takeNextThen _ fun name => bind keeps_parameters fun params =>
    bind keeps_resultType fun result => bind (keeps_body h true) fun _ => pure _

theorem keeps_conditional : Keeps w (n + 1) (· ≠ []) (conditional inner) := by
  refine next (bind (h.required .lowest) fun condition => bind (keeps_body h true) fun whenTrue =>
    bind skipNewlines fun _ => bind peek fun token => ?_)
  split
  · exact bind advance fun _ => bind (keeps_body h true) fun _ => pure _
  · exact pure _

theorem keeps_starters : ∀ rule ∈ standardStarters,
    Keeps w (n + 1) (· ≠ []) (rule.parse inner) := by
  simp only [standardStarters, List.forall_mem_cons]
  exact ⟨keeps_primary, keeps_primary, keeps_primary, keeps_primary, keeps_primary,
    keeps_moduleDef h, keeps_useDef, keeps_scopedReference, keeps_grouping h, keeps_functionDef h,
    keeps_conditional h, by simp⟩

theorem keeps_extenders (left : Expr) (power : Power) : ∀ rule ∈ standardExtenders,
    Keeps w (n + 1) (· ≠ []) (rule.parse inner left power) := by
  simpa only [standardExtenders, operator, List.forall_mem_cons, keeps_binary h left power,
    true_and] using ⟨keeps_assignment h left power, keeps_call h left power, by simp⟩

end

end Grammar

/-! ## Whole grammars -/

/-- An operand ends where `rest` begins: an expression, or what starts one. -/
def Phrase.EndsOperand (file : String) (whole rest : List Token) : Prop :=
  ∃ tokens expr, tokens <:+ whole ∧
    (Start file tokens expr rest ∨ ∃ floor, Expression file floor tokens expr rest)

open Grammar (standard standardStarters standardExtenders)

/-- The watch allows the rules to be noted, unless one starts an expression that is going to end the
run. -/
structure Watch.Admits (w : Watch) : Prop where
  plain (event : Event) : ¬ event.IsRule → w.notes event
  extended {rule : Extender} {token : Token} {rest : List Token} : token :: rest <:+ w.tokens →
    Phrase.EndsOperand w.file w.tokens (token :: rest) → standard.extender? token = some rule →
      w.notes (.ruleExtended rule.name token)
  started {rule : Starter} {token : Token} {rest : List Token} : token :: rest <:+ w.tokens →
    standard.starter? token = some rule → w.notes (.ruleStarted rule.name token) ∨
      ∀ depth cursor, cursor.Sound w.file w.last → cursor.Clean → cursor.view = token :: rest →
        cursor.view.length < depth + 2 → ∃ stop after,
          rule.parse (standard.expressionWithin depth) cursor = .error stop after ∧ w.stops stop

namespace Grammar

theorem mem_of_starter? {rule : Starter} {token : Token} (h : standard.starter? token = some rule) :
    rule ∈ standardStarters :=
  List.mem_of_find?_eq_some h

theorem starter?_last {last : Token} (h : last.IsLast) : standard.starter? last = none := by
  refine List.find?_eq_none.2 fun rule hrule => ?_
  obtain ⟨phrase, -, hrow⟩ := exists_mem_startRows "" last hrule
  exact not_accepts_last h _ hrow

theorem extender?_last {last : Token} (h : last.IsLast) : standard.extender? last = none := by
  obtain ⟨power, hpower, -⟩ | ⟨hvalue, -⟩ | ⟨hvalue, -⟩ | ⟨-, hnone⟩ := extender?_cases last
  · rw [Token.binaryPower?, if_neg (by simp [h.kind_eq])] at hpower
    cases hpower
  · simp [h.value_eq] at hvalue
  · simp [h.value_eq] at hvalue
  · exact hnone

/-- What a rule that starts an expression has parsed is the start of one. -/
theorem start_of_starter {file : String} {last token : Token} {rest : List Token} {rule : Starter}
    {cursor after : Cursor} {depth : Nat} {expr : Expr} (hcursor : cursor.Sound file last)
    (hrule : standard.starter? token = some rule) (hview : cursor.view = token :: rest)
    (hrun : rule.parse (standard.expressionWithin depth) cursor = .ok expr after) :
    Phrase.Start file cursor.view expr after.view := by
  rw [starter?_eq file last, Option.map_eq_some_iff] at hrule
  obtain ⟨row, hfind, rfl⟩ := hrule
  obtain ⟨-, hphrase⟩ := (parses_startRows (parses_expressionWithin depth) row
    (List.mem_of_find?_eq_some hfind)).sound hcursor hrun
  rw [hview] at hphrase ⊢
  exact start_of_choice (choice_cons_iff.2 ⟨row, hfind, hphrase⟩)

end Grammar

namespace Watch.Admits

variable (h : w.Admits) {depth : Nat}

include h

theorem extendRound (hinner : (standard.expressionWithin depth).Keeps w n) (floor : Power)
    (left : Expr) : Keeps w (n + 1) (Phrase.EndsOperand w.file w.tokens)
      (standard.extendRound (standard.expressionWithin depth) floor left) := by
  refine look (fun hlast _ => ?_) fun token rest hsuffix hends => ?_
  · rw [Grammar.extender?_last hlast]
    exact pure _
  · cases hrule : standard.extender? token with
    | none => exact pure _
    | some rule =>
      dsimp only
      split
      · have hparse := Grammar.keeps_extenders hinner left rule.power rule
          (List.mem_of_find?_eq_some hrule)
        refine noteThen (h.extended hsuffix hends hrule) (bind ?_ fun _ => pure _)
        exact hparse.weaken fun tokens htokens => htokens ▸ List.cons_ne_nil _ _
      · exact pure _

/-- Each round parses one more operand. -/
theorem extend (hinner : (standard.expressionWithin depth).Keeps w n) (floor : Power)
    (left : Expr) : Keeps w (n + 1) (Phrase.EndsOperand w.file w.tokens)
      (standard.extend (standard.expressionWithin depth) floor left) := by
  rw [Grammar.extend_eq]
  refine loopFrom (I := fun _ => Phrase.EndsOperand w.file w.tokens) (h.extendRound hinner floor)
    (fun cursor left next after hcursor _ _ hrun => ?_) left
  have hsuffix := hcursor.suffix
  obtain ⟨-, hround⟩ := (Grammar.parses_extendRound (Grammar.parses_expressionWithin depth) floor
    left).sound hcursor.sound hrun
  generalize cursor.view = tokens at hround hsuffix
  cases hround with
  | binary _ _ hright => exact ⟨_, _, (List.suffix_cons _ _).trans hsuffix, .inr ⟨_, hright⟩⟩
  | assign _ _ hvalue => exact ⟨_, _, (List.suffix_cons _ _).trans hsuffix, .inr ⟨_, hvalue⟩⟩
  | call _ _ htarget => exact ⟨_, _, (List.suffix_cons _ _).trans hsuffix, .inr ⟨_, htarget⟩⟩

theorem expressionStep (hinner : (standard.expressionWithin depth).Keeps w (depth + 1)) :
    (standard.expressionStep (standard.expressionWithin depth)).Keeps w (depth + 2) := by
  intro floor
  refine bind skipNewlines fun _ => look (fun hlast _ => ?_) fun token rest hsuffix _ => ?_
  · rw [Grammar.starter?_last hlast]
    exact pure _
  · cases hrule : standard.starter? token with
    | none => exact pure _
    | some rule =>
      obtain hnotes | hstops := h.started hsuffix hrule
      · have hparse := Grammar.keeps_starters hinner rule (Grammar.mem_of_starter? hrule)
        refine noteThen hnotes (bindThen (k := depth + 2)
          (hparse.weaken fun tokens htokens => htokens ▸ List.cons_ne_nil _ _)
          (fun start => bind (h.extend hinner floor start) fun whole => ?_)
          fun cursor start after hcursor hlen hview hrun => ?_)
        · exact fun _ hcursor _ _ => ⟨hcursor, List.suffix_rfl⟩
        · have hstart := Grammar.start_of_starter hcursor.sound hrule hview hrun
          exact ⟨Nat.lt_of_lt_of_le hstart.takes.length_lt (Nat.le_of_lt hlen),
            _, _, hcursor.suffix, .inl hstart⟩
      · intro cursor hcursor hlen hview
        let noted : Cursor :=
          { cursor with log := cursor.log.push (.ruleStarted rule.name token) }
        have hnote : ParseM.note (.ruleStarted rule.name token) cursor = .ok () noted := rfl
        obtain ⟨stop, after, hrun, hstop⟩ :=
          hstops depth noted (hcursor.sound.log _) hcursor.clean hview hlen
        dsimp only
        rw [bind_of_ok hnote, bind_of_error hrun]
        exact .inl hstop

theorem expressionWithin (depth : Nat) :
    (standard.expressionWithin depth).Keeps w (depth + 1) := by
  induction depth with
  | zero => exact fun _ => throw _
  | succ depth ih => exact h.expressionStep ih

theorem program : Keeps w n P standard.program := by
  rw [Grammar.program_eq]
  have hround (contents : Array Expr) : Keeps w n anyTokens (standard.programRound contents) := by
    refine bind (getBudget fun bound => (h.expressionWithin bound .lowest).mono (Nat.le_succ bound))
      fun found => ?_
    cases found with
    | some expr => exact pure _
    | none => exact pure _
  refine bind (loop hround #[]) fun contents => bind peek fun token => ?_
  have hend : Keeps w n anyTokens (do
      ParseM.note (.fileParsed contents.size)
      return ({ contents := contents.toList } : Block Expr)) :=
    bind (note (h.plain _ id)) fun _ => pure _
  split
  · exact hend
  · exact bind (fail _) fun _ => hend

end Watch.Admits

/-! ## Whole texts -/

/-- The events of a delivery say nothing of rules. -/
def Delivery.Plain (delivery : Delivery) : Prop :=
  ∀ event ∈ delivery.events, ¬ event.IsRule

theorem Layout.plain_breakEvents (layout : Layout) (line width : Nat) :
    ∀ event ∈ layout.breakEvents line width, ¬ event.IsRule := by
  unfold breakEvents
  split <;> simp [Event.IsRule]

theorem Scanner.Goes.plain {scanner after : Scanner} {delivery : Delivery}
    (h : scanner.Goes delivery after) : delivery.Plain := by
  cases h with
  | release | cut => exact List.forall_mem_singleton.2 id
  | stop | unrecognised => exact List.forall_mem_nil _
  | lineBreak =>
    exact List.forall_mem_append.2
      ⟨Layout.plain_breakEvents _ _ _, List.forall_mem_singleton.2 id⟩
  | indentation => exact Layout.plain_breakEvents _ _ _

theorem Token.Stream.plain_ofText (source : String) (file : Option String) :
    (∀ delivery ∈ (Token.Stream.ofText source file).ahead, delivery.Plain) ∧
      (Token.Stream.ofText source file).last.Plain :=
  Scanner.forall_mem_stream (p := Delivery.Plain)
    (fun scanner (_ : True) => ⟨scanner.goes_next.plain, trivial⟩) (Scanner.ofText source file) trivial

/-- A watch that allows all but rules holds at the first token of a text. -/
theorem Watch.holds_ofText {source : String} {file : Option String} {cursor : Cursor}
    (hplain : ∀ event, ¬ event.IsRule → w.notes event)
    (htokens : (tokenize source file).result = .ok (w.tokens ++ [w.last]))
    (hfile : w.file = file.getD Scanner.unknownFile)
    (hcursor : (Cursor.ofText source file #[.fileOpened (file.getD Scanner.unknownFile)]).result =
      .ok cursor) : w.Holds cursor := by
  obtain ⟨hsound, htokens'⟩ := Cursor.sound_ofText hcursor
  obtain ⟨hclean, heq⟩ := (htokens' _).1 htokens
  obtain ⟨hview, hlast⟩ := List.append_inj' heq rfl
  rw [← hfile, ← List.singleton_inj.1 hlast] at hsound
  obtain ⟨hahead, hend⟩ := Token.Stream.plain_ofText source file
  obtain ⟨hfirst, hrest⟩ := (Token.Stream.ofText source file).mem_next
  have hdeliveries : ∀ delivery ∈ (Token.Stream.ofText source file).last ::
      (Token.Stream.ofText source file).ahead, ∀ event ∈ delivery.events, w.notes event :=
    List.forall_mem_cons.2 ⟨fun event hevent => hplain event (hend event hevent),
      fun delivery hdelivery event hevent => hplain event (hahead delivery hdelivery event hevent)⟩
  obtain ⟨current, -, rfl⟩ := Cursor.ofText_eq_ok_iff.1 hcursor
  refine ⟨hsound, hclean, hview ▸ List.suffix_rfl, fun event hevent => ?_,
    fun delivery hdelivery => hdeliveries delivery (hrest delivery hdelivery)⟩
  rw [← Array.mem_toList_iff, Array.toList_appendList, List.mem_append,
    List.mem_singleton] at hevent
  obtain rfl | hevent := hevent
  · exact hplain _ id
  · exact hdeliveries _ hfirst event hevent

/-- What is noted on the way through a text that has tokens, unless the run ends before. -/
theorem Watch.Admits.events_of_parse (h : w.Admits) {source : String} {file : Option String}
    (htokens : (tokenize source file).result = .ok (w.tokens ++ [w.last]))
    (hfile : w.file = file.getD Scanner.unknownFile) :
    (∀ event ∈ (parse source file).events, w.notes event) ∨
      ∃ stop, (parse source file).result = .error stop ∧ w.stops stop := by
  obtain ⟨cursor, hcursor⟩ :=
    Cursor.exists_ofText #[.fileOpened (file.getD Scanner.unknownFile)] htokens
  have hholds := Watch.holds_ofText h.plain htokens hfile hcursor
  have hends : w.Ends cursor (standard.program cursor) :=
    (h.program (P := anyTokens)) cursor hholds (Nat.lt_succ_self _) trivial
  rw [parse_of_ofText hcursor]
  cases hrun : standard.program cursor with
  | ok block after =>
    rw [hrun] at hends
    exact .inl fun event hevent => hends.1.log event (Array.mem_toList_iff.1 hevent)
  | error stop after =>
    rw [hrun] at hends
    obtain hstop | hlog := hends
    · exact .inr ⟨stop, rfl, hstop⟩
    · exact .inl fun event hevent => hlog event (Array.mem_toList_iff.1 hevent)

end Offside
