import Offside.Proofs.Cursor.Resumed
import Offside.Proofs.Expr.Equality
import Offside.Proofs.Grammar.Watched
import Offside.Proofs.Termination

/-!
# Floors compose

A parse of an expression above a low floor is a parse above a higher one, and after it the loop over
the rules that extend, taken up again at the low floor (`Grammar.floors_compose`).

Both runs start with the same operand (`Grammar.expressionStep_eq`). From there on a round at the
high floor is a round at the low one, unless the loop stops there (`Grammar.stopsEarlier_extendRound`).
So the loop at the high floor is a beginning of the loop at the low floor, which has rounds to spare
for what is left (`ParseM.StopsEarlier.exists_rest`). How much depth and how many rounds are granted
at the place where the loop is taken up is no matter, since both runs read the same tokens
(`Lockstep.spared`).
-/

namespace Offside

open ParseM

/-! ## The states of a parser -/

/-- The states that a parser of a text can come to. What is noted on the way may be anything. -/
inductive Cursor.Reached (source : String) (file : Option String) : Cursor → Prop
  /-- The first token of the text. -/
  | first {log : Array Event} {cursor : Cursor} :
    (Cursor.ofText source file log).result = .ok cursor → Reached source file cursor
  /-- A step to the next token. -/
  | moved {cursor after : Cursor} : Reached source file cursor →
    advance cursor = .ok () after → Reached source file after
  /-- A step that was stopped by a fault. -/
  | stopped {cursor after : Cursor} {stop : Stop} : Reached source file cursor →
    advance cursor = .error stop after → Reached source file after
  | noted {cursor : Cursor} {log : Array Event} : Reached source file cursor →
    Reached source file { cursor with log }

namespace Cursor

variable {source : String} {file : Option String} {name : String} {last : Token}
  {cursor after : Cursor}

/-- A step that is stopped leaves the current token, and the fault behind. -/
theorem Sound.stopped {stop : Stop} (h : cursor.Sound name last)
    (hrun : advance cursor = .error stop after) : after.Sound name last := by
  rw [advance_eq] at hrun
  split at hrun
  · cases hrun
  · cases hrun
    cases hahead : cursor.stream.ahead with
    | nil =>
      have hstream : cursor.stream.next.2 = cursor.stream := by
        simp [Token.Stream.next, hahead]
      simp only [hstream]
      exact h.log _
    | cons delivery ahead =>
      have hstream : cursor.stream.next.2 = { cursor.stream with ahead } := by
        simp [Token.Stream.next, hahead]
      simp only [hstream]
      refine ⟨h.file_eq, h.endToken_eq, ⟨fun later hlater => ?_, h.stream.last⟩, h.current, fun hend => ?_⟩
      · exact h.stream.ahead later (hahead ▸ List.mem_cons_of_mem _ hlater)
      · have hnil := (h.ended hend).1
        rw [hahead] at hnil
        cases hnil

theorem Reached.exists_sound (h : cursor.Reached source file) :
    ∃ name last, cursor.Sound name last := by
  induction h with
  | first hfirst => exact ⟨_, _, (sound_ofText hfirst).1⟩
  | moved _ hrun ih =>
    obtain ⟨name, last, hsound⟩ := ih
    exact ⟨name, last, (leads_of_advance hsound hrun).1.sound⟩
  | stopped _ hrun ih =>
    obtain ⟨name, last, hsound⟩ := ih
    exact ⟨name, last, hsound.stopped hrun⟩
  | noted _ ih =>
    obtain ⟨name, last, hsound⟩ := ih
    exact ⟨name, last, hsound.log _⟩

end Cursor

namespace Grammar

variable {grammar : Grammar} {inner : ExprParser} {low high floor : Power} {cursor after : Cursor}

/-! ## Rounds at two floors -/

theorem extendRound_eq (grammar : Grammar) (inner : ExprParser) (floor : Power) (left : Expr)
    (cursor : Cursor) : grammar.extendRound inner floor left cursor =
      (match grammar.extender? cursor.current with
      | some rule =>
        if floor < rule.power then do
          note (.ruleExtended rule.name cursor.current)
          return .again (← rule.parse inner left rule.power)
        else return .done left
      | none => return .done left : ParseM (Round Expr Expr)) cursor :=
  rfl

/-- A rule that applies does not stop the loop. -/
theorem goes_on {rule : Extender} {left result : Expr} {event : Event} :
    (do note event; return .again (← rule.parse inner left rule.power) :
      ParseM (Round Expr Expr)) cursor ≠ .ok (.done result) after := by
  intro h
  obtain ⟨_, noted, _, h⟩ := bind_eq_ok.1 h
  obtain ⟨next, middle, _, h⟩ := bind_eq_ok.1 h
  cases h

/-- What binds more strongly than the high floor binds more strongly than the low one. -/
theorem stopsEarlier_extendRound (hle : low ≤ high) :
    StopsEarlier (grammar.extendRound inner high) (grammar.extendRound inner low) := by
  intro left cursor
  rw [extendRound_eq, extendRound_eq]
  cases grammar.extender? cursor.current with
  | none => exact .inl rfl
  | some rule =>
    by_cases hhigh : high < rule.power
    · have hlow : low < rule.power := Nat.lt_of_le_of_lt hle hhigh
      simp only [if_pos hhigh, if_pos hlow]
      exact .inr ⟨trivial, fun result after => goes_on⟩
    · simp only [if_neg hhigh]
      exact .inl rfl

/-- The last round leaves a token that does not bind more strongly than the floor. -/
theorem power_of_done {left result : Expr}
    (h : grammar.extendRound inner floor left cursor = .ok (.done result) after) :
    grammar.power after.current ≤ floor := by
  rw [extendRound_eq] at h
  cases hrule : grammar.extender? cursor.current with
  | none =>
    rw [hrule] at h
    cases h
    rw [power, hrule]
    exact Nat.zero_le _
  | some rule =>
    rw [hrule] at h
    dsimp only at h
    split at h
    · exact absurd h goes_on
    · rename_i hpower
      cases h
      rw [power, hrule]
      exact Nat.not_lt.1 hpower

/-! ## The operand and what extends it -/

/-- The token that an expression starts with, and what the rule for it parses. -/
def opening (grammar : Grammar) (inner : ExprParser) : ParseM (Option (Token × Expr)) := do
  skipNewlines
  let token ← peek
  match grammar.starter? token with
  | none => return none
  | some rule =>
    note (.ruleStarted rule.name token)
    return some (token, ← rule.parse inner)

/-- An expression from its first operand on. -/
def extended (grammar : Grammar) (inner : ExprParser) (floor : Power) :
    Option (Token × Expr) → ParseM (Option Expr)
  | none => return none
  | some (token, start) => do
    let whole ← grammar.extend inner floor start
    return some (whole.stamp { file := (← get).file, line := token.line })

/-- The floor is no matter for the first operand. -/
theorem expressionStep_eq (grammar : Grammar) (inner : ExprParser) (floor : Power) :
    grammar.expressionStep inner floor = grammar.opening inner >>= grammar.extended inner floor := by
  rw [opening, bind_assoc]
  refine bind_congr fun _ => ?_
  rw [bind_assoc]
  refine bind_congr fun token => ?_
  cases grammar.starter? token <;> simp [extended]

variable {name : String} {last token : Token} {start whole : Expr} {depth : Nat}

theorem extended_of_ok {opened : Token × Expr}
    (h : grammar.extend inner floor opened.2 cursor = .ok whole after) :
    grammar.extended inner floor (some opened) cursor =
      .ok (some (whole.stamp { file := after.file, line := opened.1.line })) after :=
  bind_of_ok h

theorem extended_of_error {opened : Token × Expr} {stop : Stop}
    (h : grammar.extend inner floor opened.2 cursor = .error stop after) :
    grammar.extended inner floor (some opened) cursor = .error stop after :=
  bind_of_error h

theorem exists_extend {opened : Token × Expr} {found : Option Expr}
    (h : grammar.extended inner floor (some opened) cursor = .ok found after) :
    ∃ whole, grammar.extend inner floor opened.2 cursor = .ok whole after ∧
      found = some (whole.stamp { file := after.file, line := opened.1.line }) := by
  obtain ⟨whole, final, hextend, hstamp⟩ := bind_eq_ok.1 h
  cases hstamp
  exact ⟨whole, hextend, rfl⟩

/-- The first token after the newlines has a rule, which parses the first operand. -/
theorem exists_starter
    (h : grammar.opening inner cursor = .ok (some (token, start)) after) :
    ∃ begun rule, skipNewlines cursor = .ok () begun ∧ token = begun.current ∧
      grammar.starter? token = some rule ∧
      rule.parse inner { begun with log := begun.log.push (.ruleStarted rule.name token) } =
        .ok start after := by
  obtain ⟨_, begun, hskip, h⟩ := bind_eq_ok.1 h
  obtain ⟨opener, begun', hpeek, h⟩ := bind_eq_ok.1 h
  cases hpeek
  cases hrule : grammar.starter? begun.current with
  | none =>
    rw [hrule] at h
    cases h
  | some rule =>
    rw [hrule] at h
    obtain ⟨_, noted, hnote, h⟩ := bind_eq_ok.1 h
    obtain ⟨operand, middle, hparse, hend⟩ := bind_eq_ok.1 h
    cases hnote
    cases hend
    exact ⟨begun, rule, hskip, rfl, hrule, hparse⟩

/-- The first operand takes a token. -/
theorem sound_opening (hcursor : cursor.Sound name last)
    (hrun : standard.opening (standard.expressionWithin depth) cursor =
      .ok (some (token, start)) after) :
    after.Sound name last ∧ after.view.length < cursor.view.length := by
  obtain ⟨begun, rule, hskip, rfl, hrule, hparse⟩ := exists_starter hrun
  obtain ⟨hleads, -⟩ := (Parses.skipNewlines (n := 0)).sound hcursor hskip
  have hnoted := hleads.sound.log (begun.log.push (.ruleStarted rule.name begun.current))
  have htaken := consumes_starter depth (mem_of_starter? hrule) name last _ _ _ hnoted hparse
  obtain ⟨phrase, -, hrow⟩ := exists_mem_startRows name last (mem_of_starter? hrule)
  have hparses := parses_startRows (parses_expressionWithin depth) _ hrow
  exact ⟨(hparses.sound hnoted hparse).1.sound, Nat.lt_of_lt_of_le htaken hleads.suffix.length_le⟩

/-! ## Expressions at two floors -/

theorem exists_budget (cursor : Cursor) : ∃ depth, cursor.budget = depth + 1 :=
  Nat.exists_eq_succ_of_ne_zero (Nat.ne_of_gt (Nat.zero_lt_of_lt cursor.length_view_lt_budget))

/-- Either there is no expression, whatever the floor, or there is a first operand from which the
expression goes on. -/
theorem expression_cases (hdepth : cursor.budget = depth + 1) :
    (∃ result, (∀ found after, result ≠ .ok (some found) after) ∧
      ∀ floor, standard.expression floor cursor = result) ∨
    ∃ opened middle,
      standard.opening (standard.expressionWithin depth) cursor = .ok (some opened) middle ∧
      ∀ floor, standard.expression floor cursor =
        standard.extended (standard.expressionWithin depth) floor (some opened) middle := by
  have hrun (floor : Power) : standard.expression floor cursor =
      (standard.opening (standard.expressionWithin depth) >>=
        standard.extended (standard.expressionWithin depth) floor) cursor := by
    rw [← expressionStep_eq]
    show standard.expressionWithin cursor.budget floor cursor = _
    rw [hdepth, expressionWithin]
  cases hopening : standard.opening (standard.expressionWithin depth) cursor with
  | error stop middle =>
    refine .inl ⟨.error stop middle, fun _ _ h => ?_, fun floor => ?_⟩
    · cases h
    · rw [hrun, bind_of_error hopening]
  | ok opened middle =>
    cases opened with
    | none =>
      refine .inl ⟨.ok none middle, fun _ _ h => ?_, fun floor => ?_⟩
      · cases h
      · rw [hrun, bind_of_ok hopening]
        rfl
    | some opened =>
      refine .inr ⟨opened, middle, rfl, fun floor => ?_⟩
      rw [hrun, bind_of_ok hopening]

/-- What is spared is no matter where there are fewer tokens than the depth. -/
theorem agrees_expression (depth : Nat) (name : String) (last : Token) :
    (standard.expressionWithin depth).Agrees (.spared name last) depth standard.expression := by
  intro floor cursor cursor' hcursor hlen hP
  have hbudget := cursor'.length_view_lt_budget
  rw [(Lockstep.spared name last).length_view hcursor] at hbudget
  exact standard_agrees.expressionWithin depth cursor'.budget floor cursor cursor' hcursor
    (Nat.lt_min.2 ⟨hlen, hbudget⟩) hP

/-- The loop at the low floor, and the same loop taken up with what was parsed so far. -/
theorem agrees_rest {middle : Cursor} {rest : Nat} (hmiddle : middle.Sound name last)
    (hdepth : middle.view.length < depth) (hrest : middle.view.length < rest) (low : Power)
    (whole : Expr) (origin : Origin) :
    EndAlike (fun expr expr' => expr'.bare = expr.bare)
      (loopWithin (standard.extendRound (standard.expressionWithin depth) low) rest whole middle)
      (standard.extend standard.expression low (whole.stamp origin) middle) := by
  have hstart : whole.Alike id id (whole.stamp origin) := by
    intro place place' hplace
    rw [Expr.stamp_stamp]
    exact congrArg (fun place => (whole.stamp place).relocate id) hplace
  have hagrees : AgreesOn (.spared name last) depth _ _ standard standard :=
    standard_agrees depth _ _ (agrees_expression depth name last)
  have hends := ParseM.Agrees.loopWithin (P := anyToken)
    (fun left left' hleft => hagrees.extendRound low hleft) rest middle.budget whole
    (whole.stamp origin) hstart middle middle ⟨hmiddle, _, _, rfl⟩
    (Nat.lt_min.2 ⟨hdepth, Nat.lt_min.2 ⟨hrest, middle.length_view_lt_budget⟩⟩) trivial
  refine hends.imp ?_
  rintro expr expr' after after' ⟨⟨-, hafter⟩, -, -, halike⟩
  have hsame : (expr.stamp {}).relocate id = (expr'.stamp {}).relocate id := halike {} {} rfl
  have hbare := Expr.bare_congr hsame
  rw [Expr.bare_stamp, Expr.bare_stamp] at hbare
  exact ⟨hbare.symm, hafter⟩

/-- The loop at the low floor, and the same loop after the one at the high floor. -/
theorem agrees_extend (hle : low ≤ high) {middle : Cursor} (hcursor : cursor.Sound name last)
    (hdepth : cursor.view.length < depth)
    (hrun : standard.extend (standard.expressionWithin depth) high start cursor = .ok whole middle)
    (origin : Origin) :
    EndAlike (fun expr expr' => expr'.bare = expr.bare)
      (standard.extend (standard.expressionWithin depth) low start cursor)
      (standard.extend standard.expression low (whole.stamp origin) middle) := by
  obtain ⟨hmiddle, rest, hrest, hlow⟩ := (stopsEarlier_extendRound hle).exists_rest
    (fun hsound hround =>
      ⟨((parses_extendRound (parses_expressionWithin depth) low _).sound hsound hround).1.sound,
        (roundsProgress depth).extensions low _ _ _ _ _ _ hsound hround⟩)
    hcursor cursor.length_view_lt_budget hrun
  have hleads := ((parses_extend (parses_expressionWithin depth) high start).sound hcursor hrun).1
  have hless := hleads.suffix.length_le
  have hextend : standard.extend (standard.expressionWithin depth) low start cursor =
      loopWithin (standard.extendRound (standard.expressionWithin depth) low) rest whole middle := hlow
  rw [hextend]
  exact agrees_rest hmiddle (by omega) hrest low whole origin

/-- A tree that was parsed is equal to itself at other places. -/
theorem equals_of_parsed {found : Expr} {other : Expr} (hcursor : cursor.Sound name last)
    (hrun : standard.expression floor cursor = .ok (some found) after)
    (hbare : other.bare = found.bare) : (found == other) = true := by
  obtain ⟨-, hfound⟩ := (parses_expression (n := 0) floor).sound hcursor hrun
  have hleaves := Phrase.Expression.leaves hfound fun token hmem => (hcursor.view_inView token hmem).proper
  show found.equals other = true
  rw [Expr.equals_comm, Expr.equals_of_bare hbare, Expr.equals_self_iff]
  refine Expr.noNaN_of_leaves fun leaf hleaf => ?_
  have hmem : some leaf ∈ Token.leaves cursor.view := by
    rw [hleaves]
    exact List.mem_append_left _ (List.mem_map_of_mem hleaf)
  obtain ⟨token, -, htoken⟩ := List.mem_map.1 hmem
  exact Token.reflexive_of_leaf? htoken

theorem expression_of_error (hle : low ≤ high) {stop : Stop}
    (hrun : standard.expression high cursor = .error stop after) :
    standard.expression low cursor = .error stop after := by
  obtain ⟨depth, hdepth⟩ := exists_budget cursor
  obtain ⟨result, -, hsame⟩ | ⟨opened, middle, -, hsame⟩ := expression_cases hdepth
  · rw [hsame] at hrun ⊢
    exact hrun
  · rw [hsame] at hrun ⊢
    cases hextend : standard.extend (standard.expressionWithin depth) high opened.2 middle with
    | ok whole final =>
      rw [extended_of_ok hextend] at hrun
      cases hrun
    | error stop' final =>
      rw [extended_of_error hextend] at hrun
      cases hrun
      exact extended_of_error ((stopsEarlier_extendRound hle).error hextend)

/-- Where there is no expression above one floor there is none above another. -/
theorem expression_of_none (hrun : standard.expression high cursor = .ok none after)
    (low : Power) : standard.expression low cursor = .ok none after := by
  obtain ⟨depth, hdepth⟩ := exists_budget cursor
  obtain ⟨result, -, hsame⟩ | ⟨opened, middle, -, hsame⟩ := expression_cases hdepth
  · rw [hsame] at hrun ⊢
    exact hrun
  · rw [hsame] at hrun
    obtain ⟨whole, -, hfound⟩ := exists_extend hrun
    cases hfound

/-- The token after an expression does not bind more strongly than the floor. -/
theorem power_of_expression {found : Expr}
    (hrun : standard.expression floor cursor = .ok (some found) after) :
    standard.power after.current ≤ floor := by
  obtain ⟨depth, hdepth⟩ := exists_budget cursor
  obtain ⟨result, hnone, hsame⟩ | ⟨opened, middle, -, hsame⟩ := expression_cases hdepth
  · exact absurd ((hsame floor).symm.trans hrun) (hnone found after)
  · rw [hsame] at hrun
    obtain ⟨whole, hextend, -⟩ := exists_extend hrun
    obtain ⟨left, before, hdone⟩ := exists_done_of_loopWithin hextend
    exact power_of_done hdone

/-- From what was parsed above the high floor the loop at the low floor goes on as the parse above
the low floor does. -/
theorem extend_of_expression (hle : low ≤ high) {expr : Expr} {middle : Cursor}
    (hcursor : cursor.Sound name last)
    (hrun : standard.expression high cursor = .ok (some expr) middle) :
    EndAlike (fun found expr' => ∃ whole, found = some whole ∧ whole == expr')
      (standard.expression low cursor) (standard.extend standard.expression low expr middle) := by
  obtain ⟨depth, hdepth⟩ := exists_budget cursor
  obtain ⟨result, hnone, hsame⟩ | ⟨⟨token, start⟩, begun, hopening, hsame⟩ :=
    expression_cases hdepth
  · exact absurd ((hsame high).symm.trans hrun) (hnone expr middle)
  · rw [hsame] at hrun
    obtain ⟨whole, hextend, hexpr⟩ := exists_extend hrun
    cases hexpr
    obtain ⟨hbegun, htaken⟩ := sound_opening hcursor hopening
    have hbudget := cursor.length_view_lt_budget
    have hboth := agrees_extend hle hbegun (by omega) hextend
      { file := middle.file, line := token.line }
    refine hboth.lift (fun whole' final hlowered => ?_) fun stop final hlowered =>
      (hsame low).trans (extended_of_error hlowered)
    have hparsed := (hsame low).trans (extended_of_ok hlowered)
    refine ⟨_, hparsed, fun expr' hbare => ⟨_, rfl, ?_⟩⟩
    exact equals_of_parsed hcursor hparsed (hbare.trans (Expr.bare_stamp ..).symm)

/-- An expression above a low floor is one above a higher floor, extended by the rules that bind more
strongly than the low one. Where the higher floor leads to a fault, or to no expression, the low one
does, at the same place. What follows an expression does not bind more strongly than its floor. -/
theorem floors_compose {source : String} {file : Option String}
    (hcursor : cursor.Reached source file) (hle : low ≤ high) :
    (∀ stop after, standard.expression high cursor = .error stop after →
      (∃ fault, stop = .fault fault) ∧ standard.expression low cursor = .error stop after) ∧
    (∀ after, standard.expression high cursor = .ok none after →
      standard.expression low cursor = .ok none after) ∧
    (∀ expr middle, standard.expression high cursor = .ok (some expr) middle →
      EndAlike (fun found expr' => ∃ whole, found = some whole ∧ whole == expr')
        (standard.expression low cursor) (standard.extend standard.expression low expr middle)) ∧
    ∀ expr after, standard.expression low cursor = .ok (some expr) after →
      standard.power after.current ≤ low := by
  obtain ⟨name, last, hsound⟩ := hcursor.exists_sound
  refine ⟨fun stop after hrun => ⟨?_, expression_of_error hle hrun⟩,
    fun after hrun => expression_of_none hrun low,
    fun expr middle hrun => extend_of_expression hle hsound hrun,
    fun expr after hrun => power_of_expression hrun⟩
  obtain ⟨-, hends⟩ := outcome_descending hsound (Nat.lt_succ_self _) high
  rw [outcome, hrun] at hends
  cases stop with
  | fault fault => exact ⟨fault, rfl⟩
  | exhausted => exact absurd rfl hends

/-- A product that is parsed above the floor of a sum, and goes on as a sum. -/
theorem floors_compose_product : ∃ cursor expr middle,
    (Cursor.ofText "a * b + c" none #[]).result = .ok cursor ∧
    standard.expression .additive cursor = .ok (some expr) middle ∧
    EndAlike (fun found expr' => ∃ whole, found = some whole ∧ whole == expr')
      (standard.expression .lowest cursor) (standard.extend standard.expression .lowest expr middle) := by
  have hsome : ((Cursor.ofText "a * b + c" none #[]).result.toOption.bind fun cursor =>
      ((standard.expression .additive).outcome cursor).toOption.join).isSome = true := by
    decide +kernel
  obtain ⟨expr, hexpr⟩ := Option.isSome_iff_exists.1 hsome
  obtain ⟨cursor, hcursor, hexpr⟩ := Option.bind_eq_some_iff.1 hexpr
  replace hcursor := eq_ok_of_toOption hcursor
  replace hexpr := eq_ok_of_toOption (Option.join_eq_some_iff.1 hexpr)
  unfold outcome at hexpr
  cases hrun : standard.expression .additive cursor with
  | error stop middle =>
    rw [hrun] at hexpr
    cases hexpr
  | ok found middle =>
    rw [hrun] at hexpr
    cases hexpr
    have hcompose := floors_compose (.first hcursor) (by decide : Power.lowest ≤ .additive)
    exact ⟨cursor, expr, middle, hcursor, hrun, hcompose.2.2.1 expr middle hrun⟩

end Grammar

end Offside
