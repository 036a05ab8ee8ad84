import Offside.Expr.Basic
import Offside.Proofs.Cursor.Loops
import Offside.Proofs.Token.Moved

/-!
# Two runs of a parser

A `Lockstep` relates two runs that read the same tokens at the same time, perhaps at other places:
which cursors they reach together, and which faults they stop in together. `ParseM.Agrees` says of
two parsers that they keep in lockstep: from related cursors both end in a value, or both stop in a
fault, and neither runs out of its budget. There is a rule for each way to build a parser, so that
the argument for a rule of the grammar follows its text.

A loop or a nesting ends in time because it takes tokens. So the result of a pair of runs comes with
the number of tokens that they took.
-/

namespace Offside

/-- The events that parsers note themselves. Those of tokens are noted with the step to them. -/
def Event.IsNote (event : Event) : Prop :=
  ∀ token, event ≠ .tokenEmitted token

variable {α β σ σ' γ δ : Type}

/-- Two runs end together: in values for which `Q` holds, or in faults. -/
def ParseM.EndTogether (stops : Fault → Cursor → Fault → Cursor → Prop)
    (Q : α → β → Cursor → Cursor → Prop) :
    EStateM.Result Stop Cursor α → EStateM.Result Stop Cursor β → Prop
  | .ok a after, .ok b after' => Q a b after after'
  | .error (.fault fault) after, .error (.fault fault') after' => stops fault after fault' after'
  | _, _ => False

/-- A relation between two runs that read the same tokens. -/
structure Lockstep where
  /-- Cursors that are reached together. -/
  cursors : Cursor → Cursor → Prop
  /-- Tokens that are read together. -/
  tokens : Token → Token → Prop
  /-- Faults in which the runs stop together, and the cursors there. -/
  stops : Fault → Cursor → Fault → Cursor → Prop
  /-- Where the places of the first run are moved to, to be compared. -/
  place : Origin → Origin
  /-- Where the places of the second run are moved to. -/
  place' : Origin → Origin
  moved {token token' : Token} : tokens token token' →
    ∃ line column, token' = token.moved line column
  regular {token token' : Token} : tokens token token' → token.isEnd = true → token.value = ""
  current {cursor cursor' : Cursor} : cursors cursor cursor' →
    tokens cursor.current cursor'.current
  length_view {cursor cursor' : Cursor} : cursors cursor cursor' →
    cursor'.view.length = cursor.view.length
  /-- Both runs step to the next token, or both meet a fault. -/
  advance {cursor cursor' : Cursor} : cursors cursor cursor' → ParseM.EndTogether stops
    (fun _ _ after after' => cursors after after' ∧ after.view = cursor.view.tail)
    (ParseM.advance cursor) (ParseM.advance cursor')
  /-- Both runs may reject the tokens that they read. -/
  fault {cursor cursor' : Cursor} {token token' : Token} {cause : Fault.Cause} :
    cursors cursor cursor' → tokens token token' → cause.phase = .grammatical →
      stops (cursor.fault token cause) cursor (cursor'.fault token' cause) cursor'
  note {cursor cursor' : Cursor} {event event' : Event} : cursors cursor cursor' →
    event.IsNote → event'.IsNote → cursors { cursor with log := cursor.log.push event }
      { cursor' with log := cursor'.log.push event' }
  place_eq {cursor cursor' : Cursor} {token token' : Token} : cursors cursor cursor' →
    tokens token token' → place { file := cursor.file, line := token.line } =
      place' { file := cursor'.file, line := token'.line }

namespace ParseM

/-- From related cursors with fewer than `n` tokens, of which the first satisfies `P`, both parsers
end together, and `Q` holds of their values and of the number of tokens that they took. -/
def Agrees (s : Lockstep) (n : Nat) (P : Token → Prop) (m : ParseM α) (m' : ParseM β)
    (Q : α → β → Nat → Prop) : Prop :=
  ∀ cursor cursor', s.cursors cursor cursor' → cursor.view.length < n → P cursor.current →
    EndTogether s.stops (fun a b after after' => s.cursors after after' ∧
      ∃ taken, cursor.view.length = after.view.length + taken ∧ Q a b taken) (m cursor) (m' cursor')

/-- Any token at all. -/
def anyToken : Token → Prop :=
  fun _ => True

variable {s : Lockstep} {n k : Nat} {P P' : Token → Prop} {m m₁ m₂ : ParseM α}
  {m' m₁' m₂' : ParseM β} {Q : α → β → Nat → Prop} {R : γ → δ → Nat → Prop}

theorem EndTogether.imp {stops : Fault → Cursor → Fault → Cursor → Prop}
    {Q Q' : α → β → Cursor → Cursor → Prop} {result : EStateM.Result Stop Cursor α}
    {result' : EStateM.Result Stop Cursor β} (h : EndTogether stops Q result result')
    (himp : ∀ a b after after', Q a b after after' → Q' a b after after') :
    EndTogether stops Q' result result' := by
  cases result <;> cases result'
  case ok.ok => exact himp _ _ _ _ h
  case ok.error => exact h
  case error.ok stop _ _ _ => cases stop <;> exact h
  case error.error stop _ stop' _ => cases stop <;> cases stop' <;> exact h

namespace Agrees

theorem imp {Q' : α → β → Nat → Prop} (h : Agrees s n P m m' Q)
    (himp : ∀ a b taken, Q a b taken → Q' a b taken) : Agrees s n P m m' Q' := by
  intro cursor cursor' hcursor hlen hP
  refine (h cursor cursor' hcursor hlen hP).imp ?_
  rintro a b after after' ⟨hafter, taken, htaken, hQ⟩
  exact ⟨hafter, taken, htaken, himp a b taken hQ⟩

theorem mono (h : Agrees s n P m m' Q) (hk : k ≤ n) : Agrees s k P m m' Q :=
  fun cursor cursor' hcursor hlen => h cursor cursor' hcursor (Nat.lt_of_lt_of_le hlen hk)

theorem weaken (h : Agrees s n P m m' Q) (hP : ∀ token, P' token → P token) :
    Agrees s n P' m m' Q :=
  fun cursor cursor' hcursor hlen h' => h cursor cursor' hcursor hlen (hP _ h')

/-- Parsers that agree whatever the token ahead. -/
theorem any (h : Agrees s n anyToken m m' Q) : Agrees s n P m m' Q :=
  h.weaken fun _ _ => trivial

/-! ## Sequences -/

theorem pure {a : α} {b : β} (h : Q a b 0) : Agrees s n P (Pure.pure a) (Pure.pure b) Q :=
  fun _ _ hcursor _ _ => ⟨hcursor, 0, rfl, h⟩

theorem bindWithin {f : α → ParseM γ} {f' : β → ParseM δ} (hm : Agrees s n P m m' Q)
    (hf : ∀ a b taken, Q a b taken → Agrees s (n - taken) anyToken (f a) (f' b)
      fun c d more => R c d (taken + more)) : Agrees s n P (m >>= f) (m' >>= f') R := by
  intro cursor cursor' hcursor hlen hP
  have hfirst := hm cursor cursor' hcursor hlen hP
  show EndTogether _ _ (EStateM.bind m f cursor) (EStateM.bind m' f' cursor')
  unfold EStateM.bind
  cases hrun : m cursor <;> cases hrun' : m' cursor' <;> rw [hrun, hrun'] at hfirst
  case ok.ok a after b after' =>
    obtain ⟨hafter, taken, htaken, hQ⟩ := hfirst
    refine (hf a b taken hQ after after' hafter (by omega) trivial).imp ?_
    rintro c d final final' ⟨hfinal, more, hmore, hR⟩
    exact ⟨hfinal, taken + more, by omega, hR⟩
  case ok.error => exact hfirst.elim
  case error.ok stop _ _ _ => cases stop <;> exact hfirst.elim
  case error.error stop _ stop' _ => cases stop <;> cases stop' <;> exact hfirst

theorem bind {f : α → ParseM γ} {f' : β → ParseM δ} (hm : Agrees s n P m m' Q)
    (hf : ∀ a b taken, Q a b taken → Agrees s n anyToken (f a) (f' b)
      fun c d more => R c d (taken + more)) : Agrees s n P (m >>= f) (m' >>= f') R :=
  hm.bindWithin fun a b taken hQ => (hf a b taken hQ).mono (Nat.sub_le n taken)

theorem map {f : α → γ} {f' : β → δ} (hm : Agrees s n P m m' fun a b taken => R (f a) (f' b) taken) :
    Agrees s n P (f <$> m) (f' <$> m') R := by
  rw [← bind_pure_comp, ← bind_pure_comp]
  exact hm.bind fun _ _ _ hR => .pure hR

/-! ## The token ahead -/

/-- A look at the tokens ahead, which differ in their places alone. -/
theorem look {f : Token → ParseM α} {f' : Token → ParseM β}
    (h : ∀ token line column, s.tokens token (token.moved line column) → P token →
      Agrees s n (· = token) (f token) (f' (token.moved line column)) Q) :
    Agrees s n P (do f (← peek)) (do f' (← peek)) Q := by
  intro cursor cursor' hcursor hlen hP
  have htoken := s.current hcursor
  obtain ⟨line, column, heq⟩ := s.moved htoken
  rw [heq] at htoken
  have hboth := h cursor.current line column htoken hP cursor cursor' hcursor hlen rfl
  rw [← heq] at hboth
  exact hboth

/-- A choice by a test that does not see the place of a token. -/
theorem ifAhead {p : Token → Bool}
    (htest : ∀ token line column, p (token.moved line column) = p token)
    (h₁ : Agrees s n (fun token => P token ∧ p token = true) m₁ m₁' Q)
    (h₂ : Agrees s n (fun token => P token ∧ p token = false) m₂ m₂' Q) :
    Agrees s n P (do if p (← peek) then m₁ else m₂) (do if p (← peek) then m₁' else m₂') Q := by
  refine look fun token line column _ hP => ?_
  rw [htest]
  cases hvalue : p token with
  | true =>
    refine h₁.weaken ?_
    rintro _ rfl
    exact ⟨hP, hvalue⟩
  | false =>
    refine h₂.weaken ?_
    rintro _ rfl
    exact ⟨hP, hvalue⟩

theorem note {event event' : Event} (h : Agrees s n P m m' Q)
    (hevent : event.IsNote) (hevent' : event'.IsNote) :
    Agrees s n P (do ParseM.note event; m) (do ParseM.note event'; m') Q :=
  fun _ _ hcursor hlen hP => h _ _ (s.note hcursor hevent hevent') hlen hP

/-! ## Steps -/

end Agrees

/-- The tokens that satisfy `P` are not the end token. -/
def GoesOn (P : Token → Prop) : Prop :=
  ∀ token, (token.isEnd = true → token.value = "") → P token → token.isEnd = false

theorem goesOn_value (text : String) (h : text ≠ "") :
    GoesOn fun token => P token ∧ (token.value == text) = true := by
  rintro token hregular ⟨-, hvalue⟩
  cases hend : token.isEnd with
  | false => rfl
  | true =>
    rw [hregular hend] at hvalue
    exact absurd (beq_iff_eq.1 hvalue).symm h

theorem goesOn_kind (kind : Token.Kind) (h : kind ≠ .endOfText) :
    GoesOn fun token => P token ∧ (token.kind == kind) = true := by
  rintro token - ⟨-, hkind⟩
  rw [Token.isEnd, beq_iff_eq.1 hkind]
  exact beq_eq_false_iff_ne.2 h

theorem goesOn_keyword {text : String} :
    GoesOn fun token => P token ∧ token.isKeyword text = true := by
  rintro token - ⟨-, hkeyword⟩
  rw [Token.isEnd, beq_iff_eq.1 (Bool.and_eq_true_iff.1 hkeyword).1]
  rfl

theorem GoesOn.weaken (h : GoesOn P) (hP : ∀ token, P' token → P token) : GoesOn P' :=
  fun token hregular hP' => h token hregular (hP token hP')

namespace Agrees

/-- At the end of the text a step takes no token. -/
theorem advanceAny : Agrees s n P ParseM.advance ParseM.advance fun _ _ taken => taken ≤ 1 := by
  intro cursor cursor' hcursor _ _
  refine (s.advance hcursor).imp ?_
  rintro - - after after' ⟨hafter, hview⟩
  refine ⟨hafter, cursor.view.length - after.view.length, ?_, ?_⟩ <;>
    rw [hview, List.length_tail] <;> omega

theorem advance (hP : GoesOn P) :
    Agrees s n P ParseM.advance ParseM.advance fun _ _ taken => taken = 1 := by
  intro cursor cursor' hcursor _ htoken
  have hend := hP _ (s.regular (s.current hcursor)) htoken
  refine (s.advance hcursor).imp ?_
  rintro - - after after' ⟨hafter, hview⟩
  refine ⟨hafter, 1, ?_, rfl⟩
  rw [hview, Cursor.view, hend]
  rfl

/-- After a step there is a token less. -/
theorem next (hP : GoesOn P)
    (h : Agrees s n anyToken m m' fun a b taken => Q a b (1 + taken)) :
    Agrees s (n + 1) P (do ParseM.advance; m) (do ParseM.advance; m') Q := by
  refine (advance hP).bindWithin ?_
  rintro - - - rfl
  exact h

theorem consume (hP : GoesOn P) :
    Agrees s n P ParseM.consume ParseM.consume fun token token' taken =>
      s.tokens token token' ∧ P token ∧ taken = 1 := by
  refine look fun token line column htokens hP' => ?_
  refine ((advance hP).weaken ?_).bind ?_
  · rintro _ rfl
    exact hP'
  · rintro - - - rfl
    exact .pure ⟨htokens, hP', rfl⟩

/-- The token ahead is consumed, and then there is one less. -/
theorem consumeThen {f : Token → ParseM α} {f' : Token → ParseM β} (hP : GoesOn P)
    (h : ∀ token line column, s.tokens token (token.moved line column) → P token →
      Agrees s n anyToken (f token) (f' (token.moved line column)) fun a b taken => Q a b (1 + taken)) :
    Agrees s (n + 1) P (ParseM.consume >>= f) (ParseM.consume >>= f') Q := by
  refine (consume hP).bindWithin ?_
  rintro token token' - ⟨htokens, hP', rfl⟩
  obtain ⟨line, column, rfl⟩ := s.moved htokens
  exact h token line column htokens hP'

/-! ## Faults and demands -/

theorem failAt {token token' : Token} {cause : Fault.Cause} (h : s.tokens token token')
    (hphase : cause.phase = .grammatical) :
    Agrees s n P (ParseM.failAt token cause) (ParseM.failAt token' cause) Q :=
  fun _ _ hcursor _ _ => s.fault hcursor h hphase

theorem fail {cause : Fault.Cause} (hphase : cause.phase = .grammatical) :
    Agrees s n P (ParseM.fail cause) (ParseM.fail cause) Q :=
  look fun _ _ _ htokens _ => failAt htokens hphase

theorem accepts_moved (expected : Expected) (token : Token) (line column : Nat) :
    expected.accepts (token.moved line column) = expected.accepts token := by
  cases expected <;> rfl

/-- The end token is not what is demanded. -/
theorem goesOn_kindExpected (kind : Token.Kind) (h : kind ≠ .endOfText) :
    GoesOn fun token => (Expected.kind kind).accepts token = true :=
  (goesOn_kind (P := anyToken) kind h).weaken fun _ haccepts => ⟨trivial, haccepts⟩

theorem goesOn_textExpected (text : String) (h : text ≠ "") :
    GoesOn fun token => (Expected.text text).accepts token = true :=
  (goesOn_value (P := anyToken) text h).weaken fun _ haccepts => ⟨trivial, haccepts⟩

theorem take {expected : Expected} (hend : GoesOn fun token => expected.accepts token = true) :
    Agrees s n P (ParseM.take expected) (ParseM.take expected) fun token token' taken =>
      s.tokens token token' ∧ expected.accepts token = true ∧ taken = 1 := by
  have htake : ParseM.take expected = (do
      let token ← peek
      if expected.accepts token then
        ParseM.advance
        return token
      else ParseM.fail (.unexpectedToken expected.phrase)) := by
    rw [ParseM.take, ParseM.expect, bind_assoc]
    refine bind_congr fun token => ?_
    split
    · rw [pure_bind]
    · rfl
  rw [htake]
  refine look fun token line column htokens _ => ?_
  rw [accepts_moved]
  split
  · rename_i haccepts
    refine ((advance hend).weaken ?_).bind ?_
    · rintro _ rfl
      exact haccepts
    · rintro - - - rfl
      exact .pure ⟨htokens, haccepts, rfl⟩
  · exact fail rfl

/-- A token that is demanded, and what is parsed after it. -/
theorem takeThen {expected : Expected} {f : Token → ParseM α} {f' : Token → ParseM β}
    (hend : GoesOn fun token => expected.accepts token = true)
    (h : ∀ token line column, s.tokens token (token.moved line column) →
      expected.accepts token = true → Agrees s n anyToken (f token) (f' (token.moved line column))
        fun a b taken => Q a b (1 + taken)) :
    Agrees s n P (ParseM.take expected >>= f) (ParseM.take expected >>= f') Q := by
  refine (take hend).bind ?_
  rintro token token' - ⟨htokens, haccepts, rfl⟩
  obtain ⟨line, column, rfl⟩ := s.moved htokens
  exact h token line column htokens haccepts

/-- A step, and after it a token that is demanded. -/
theorem takeNextThen {expected : Expected} {f : Token → ParseM α} {f' : Token → ParseM β}
    (hP : GoesOn P) (hend : GoesOn fun token => expected.accepts token = true)
    (h : ∀ token line column, s.tokens token (token.moved line column) →
      expected.accepts token = true → Agrees s n anyToken (f token) (f' (token.moved line column))
        fun a b taken => Q a b (2 + taken)) :
    Agrees s (n + 1) P (ParseM.takeNext expected >>= f) (ParseM.takeNext expected >>= f') Q := by
  rw [ParseM.takeNext, bind_assoc, bind_assoc]
  refine next hP (takeThen hend fun token line column htokens haccepts => ?_)
  refine (h token line column htokens haccepts).imp fun a b taken hQ => ?_
  rwa [← Nat.add_assoc]

theorem expectDelimiter {delimiters : List String} {message : String} :
    Agrees s n P (ParseM.expectDelimiter delimiters message)
      (ParseM.expectDelimiter delimiters message) fun _ _ taken => taken = 0 := by
  refine look fun token line column _ _ => ?_
  show Agrees s n _ (if delimiters.contains token.value = true then _ else _)
    (if delimiters.contains token.value = true then _ else _) _
  split
  · exact .pure rfl
  · exact fail rfl

/-! ## The cursor itself -/

/-- A budget is more than there are tokens. -/
theorem getBudget {f : Nat → ParseM α} {f' : Nat → ParseM β}
    (h : ∀ bound bound', Agrees s (min bound bound') P (f bound) (f' bound') Q) :
    Agrees s n P (do f (← get).budget) (do f' (← get).budget) Q := by
  intro cursor cursor' hcursor _ hP
  have hlen := cursor.length_view_lt_budget
  have hlen' := cursor'.length_view_lt_budget
  rw [s.length_view hcursor] at hlen'
  exact h _ _ cursor cursor' hcursor (Nat.lt_min.2 ⟨hlen, hlen'⟩) hP

/-- The places of tokens that are read together. -/
theorem getPlace {token token' : Token} (f : Origin → ParseM α) (f' : Origin → ParseM β)
    (htokens : s.tokens token token')
    (h : ∀ origin origin', s.place origin = s.place' origin' →
      Agrees s n P (f origin) (f' origin') Q) :
    Agrees s n P (do f { file := (← get).file, line := token.line })
      (do f' { file := (← get).file, line := token'.line }) Q :=
  fun cursor cursor' hcursor hlen hP =>
    h _ _ (s.place_eq hcursor htokens) cursor cursor' hcursor hlen hP

end Agrees

/-! ## Loops -/

/-- Rounds that go on take a token at least, and keep the states of the loops related. -/
def RoundsAgree (I : σ → σ' → Prop) (Q : α → β → Prop) : Round σ α → Round σ' β → Nat → Prop
  | .again state, .again state', taken => 0 < taken ∧ I state state'
  | .done a, .done b, _ => Q a b
  | _, _, _ => False

namespace Agrees

variable {I : σ → σ' → Prop} {Q : α → β → Prop} {round : σ → ParseM (Round σ α)}
  {round' : σ' → ParseM (Round σ' β)}

theorem loopWithin
    (h : ∀ state state', I state state' →
      Agrees s n anyToken (round state) (round' state') (RoundsAgree I Q))
    (bound bound' : Nat) : ∀ state state', I state state' →
      Agrees s (min n (min bound bound')) P (ParseM.loopWithin round bound state)
        (ParseM.loopWithin round' bound' state') fun a b _ => Q a b := by
  induction bound generalizing bound' P with
  | zero => exact fun _ _ _ _ _ _ hlen => absurd hlen (by omega)
  | succ bound ih =>
    intro state state' hstate
    cases bound' with
    | zero => exact fun _ _ _ hlen => absurd hlen (by omega)
    | succ bound' =>
      refine ((h state state' hstate).any.mono (Nat.min_le_left ..)).bindWithin ?_
      intro result result' taken hround
      cases result <;> cases result' <;> try exact hround.elim
      · obtain ⟨htaken, hnext⟩ := hround
        exact (ih bound' _ _ hnext).mono (by omega)
      · exact .pure hround

/-- Loops agree whose rounds do and take a token each, except for the last. -/
theorem loop
    (h : ∀ state state', I state state' →
      Agrees s n anyToken (round state) (round' state') (RoundsAgree I Q))
    {state : σ} {state' : σ'} (hstate : I state state') :
    Agrees s n P (ParseM.loop round state) (ParseM.loop round' state') fun a b _ => Q a b := by
  intro cursor cursor' hcursor hlen hP
  have hbudget := cursor.length_view_lt_budget
  have hbudget' := cursor'.length_view_lt_budget
  rw [s.length_view hcursor] at hbudget'
  exact loopWithin h _ _ state state' hstate cursor cursor' hcursor
    (Nat.lt_min.2 ⟨hlen, Nat.lt_min.2 ⟨hbudget, hbudget'⟩⟩) hP

theorem newlineRound (state state' : Unit) :
    Agrees s n P (ParseM.newlineRound state) (ParseM.newlineRound state')
      (RoundsAgree (fun _ _ => True) fun _ _ => True) := by
  refine ifAhead (fun _ _ _ => rfl) ((advance (goesOn_kind .newline nofun)).bind ?_) (.pure trivial)
  rintro - - - rfl
  exact .pure ⟨Nat.one_pos, trivial⟩

theorem skipNewlines :
    Agrees s n P ParseM.skipNewlines ParseM.skipNewlines fun _ _ _ => True :=
  (loop (fun state state' _ => newlineRound state state') trivial).imp fun _ _ _ _ => trivial

/-- One more item, which takes a token at least. -/
theorem itemRound {closes : Token → Bool} {closing message : String} {item : ParseM α}
    {item' : ParseM β} {Q : α → β → Prop}
    (hcloses : ∀ token line column, closes (token.moved line column) = closes token)
    (h : Agrees s n anyToken item item' fun a b taken => Q a b ∧ 0 < taken) {I : List α → List β → Prop}
    (hcons : ∀ as bs a b, I as bs → Q a b → I (as ++ [a]) (bs ++ [b])) {found : Array α}
    {found' : Array β} (hstate : I found.toList found'.toList) :
    Agrees s n P (ParseM.itemRound closes closing message item found)
      (ParseM.itemRound closes closing message item' found')
      (RoundsAgree (fun as bs => I as.toList bs.toList) fun as bs => I as.toList bs.toList) := by
  refine ifAhead hcloses (.pure hstate) (h.any.bind ?_)
  rintro a b taken ⟨hitem, htaken⟩
  have hnext : I (found.push a).toList (found'.push b).toList := by
    rw [Array.toList_push, Array.toList_push]
    exact hcons _ _ a b hstate hitem
  refine expectDelimiter.bind ?_
  rintro - - - rfl
  refine ifAhead (fun _ _ _ => rfl) (advanceAny.bind fun _ _ more _ => .pure ⟨?_, hnext⟩)
    (.pure ⟨?_, hnext⟩) <;> omega

/-- A list of items. -/
theorem items {closes : Token → Bool} {closing message : String} {item : ParseM α}
    {item' : ParseM β} {Q : α → β → Prop}
    (hcloses : ∀ token line column, closes (token.moved line column) = closes token)
    (h : Agrees s n anyToken item item' fun a b taken => Q a b ∧ 0 < taken) {I : List α → List β → Prop}
    (hnil : I [] []) (hcons : ∀ as bs a b, I as bs → Q a b → I (as ++ [a]) (bs ++ [b])) :
    Agrees s n P (ParseM.items closes closing message item)
      (ParseM.items closes closing message item')
      fun as bs _ => I as bs := by
  rw [items_eq, items_eq]
  exact (loop (fun as bs hstate => itemRound hcloses h hcons hstate) (by exact hnil)).bind
    fun as bs _ hfound => advanceAny.bind fun _ _ _ _ => .pure hfound

end Agrees

end ParseM

end Offside
