import Offside.Grammar.Standard
import Offside.Proofs.Cursor.Watch
import Offside.Proofs.Expr.Counting

/-!
# Nodes on record

A `Ledger` keeps account of nodes along a run: what is on record at a cursor is a number of nodes,
those of the expressions that were parsed so far. It says how a step of the cursor, a noted rule and
a new node change what is on record. `ParseM.Tallies` hands the account on from one parser to the
next, from round to round of a loop, and to the answer. There is a rule for each way to build a
parser, so that what is said of noted rules and the nodes that they make comes down to the laws of
one ledger.
-/

namespace Offside

open Grammar (standard)

/-- An account of the nodes that a run makes, for nodes that satisfy `test`. -/
structure Ledger where
  test : Expr → Bool
  counts : Expr.Counts test
  /-- What an extension puts on record before its node is made. -/
  extension : Nat
  /-- So much is on record at the cursor. -/
  holds : Nat → Cursor → Prop
  /-- A node is on record where it was made. -/
  made {k : Nat} {cursor : Cursor} (expr : Expr) :
    holds (k + if expr.kind.isOperation then extension else 0) cursor →
      holds (k + if test expr then 1 else 0) cursor
  advance {k : Nat} {cursor after : Cursor} : holds k cursor →
    ParseM.advance cursor = .ok () after → holds k after
  note {k : Nat} {cursor : Cursor} {event : Event} : ¬ event.IsRule → holds k cursor →
    holds k { cursor with log := cursor.log.push event }
  extended {k : Nat} {cursor : Cursor} (rule : String) (token : Token) : holds k cursor →
    holds (k + extension) { cursor with log := cursor.log.push (.ruleExtended rule token) }
  /-- Where a rule has started, it is enough that the rule itself keeps the account. -/
  started {k depth : Nat} {cursor after : Cursor} {rule : Starter} {start : Expr} :
    holds k cursor → standard.starter? cursor.current = some rule →
      let noted := { cursor with log := cursor.log.push (.ruleStarted rule.name cursor.current) }
      rule.parse (standard.expressionWithin depth) noted = .ok start after →
        (∀ k, holds k noted → holds (k + start.count test) after) →
          holds (k + start.count test) after

/-- What a round hands on: to the next round, or as the result of the loop. -/
def Round.weight {σ β : Type} (next : σ → Nat) (result : β → Nat) : Round σ β → Nat
  | again state => next state
  | done b => result b

namespace ParseM

/-- Where `k` is on record and the parser answers, what the answer weighs is on record. -/
def Tallies {α : Type} (l : Ledger) (k : Nat) (m : ParseM α) (w : α → Nat) : Prop :=
  ∀ cursor a after, l.holds k cursor → m cursor = .ok a after → l.holds (w a) after

variable {α β σ : Type} {l : Ledger} {k : Nat} {m : ParseM α} {w : α → Nat} {w' : β → Nat}

namespace Tallies

/-! ## Sequences -/

theorem pure {a : α} (h : w a = k) : Tallies l k (Pure.pure a) w := by
  intro cursor b after hcursor hrun
  cases hrun
  rwa [h]

/-- A node counts what is below it, and itself if it satisfies the test. -/
theorem node {expr : Expr} {n : Nat} (h : k = n + Expr.countAll l.test expr.children +
      if expr.kind.isOperation then l.extension else 0) :
    Tallies l k (Pure.pure expr) fun expr => n + expr.count l.test := by
  intro cursor b after hcursor hrun
  cases hrun
  show l.holds (n + expr.count l.test) cursor
  rw [Expr.count_eq, ← Nat.add_assoc]
  exact l.made expr (h ▸ hcursor)

theorem bind {f : α → ParseM β} (hm : Tallies l k m w)
    (hf : ∀ a, Tallies l (w a) (f a) w') : Tallies l k (m >>= f) w' := by
  intro cursor b final hcursor hrun
  obtain ⟨a, after, hfirst, hsecond⟩ := bind_eq_ok.1 hrun
  exact hf a after b final (hm cursor a after hcursor hfirst) hsecond

theorem map {f : α → β} (hm : Tallies l k m fun a => w' (f a)) :
    Tallies l k (f <$> m) w' := by
  rw [← bind_pure_comp]
  exact bind hm fun a => pure rfl

/-! ## Looking and moving -/

theorem peek : Tallies l k ParseM.peek fun _ => k := by
  intro cursor a after hcursor hrun
  cases hrun
  exact hcursor

theorem note {event : Event} (h : ¬ event.IsRule) : Tallies l k (ParseM.note event) fun _ => k := by
  intro cursor a after hcursor hrun
  cases hrun
  exact l.note h hcursor

theorem noteExtension (rule : String) (token : Token) :
    Tallies l k (ParseM.note (.ruleExtended rule token)) fun _ => k + l.extension := by
  intro cursor a after hcursor hrun
  cases hrun
  exact l.extended rule token hcursor

theorem advance : Tallies l k ParseM.advance fun _ => k :=
  fun _ _ _ hcursor hrun => l.advance hcursor hrun

theorem consume : Tallies l k ParseM.consume fun _ => k :=
  bind peek fun _ => bind advance fun _ => pure rfl

/-! ## Faults and demands -/

theorem throw (stop : Stop) : Tallies l k (throw stop : ParseM α) w := by
  intro cursor a after _ hrun
  cases hrun

theorem failAt (token : Token) (cause : Fault.Cause) :
    Tallies l k (ParseM.failAt token cause : ParseM α) w := by
  intro cursor a after _ hrun
  cases hrun

theorem fail (cause : Fault.Cause) : Tallies l k (ParseM.fail cause : ParseM α) w := by
  intro cursor a after _ hrun
  cases hrun

theorem expect (expected : Expected) : Tallies l k (ParseM.expect expected) fun _ => k := by
  refine bind peek fun token => ?_
  split
  · exact pure rfl
  · exact fail _

theorem take (expected : Expected) : Tallies l k (ParseM.take expected) fun _ => k :=
  bind (expect expected) fun _ => bind advance fun _ => pure rfl

theorem takeNext (expected : Expected) : Tallies l k (ParseM.takeNext expected) fun _ => k :=
  bind advance fun _ => take expected

theorem expectDelimiter (delimiters : List String) (message : String) :
    Tallies l k (ParseM.expectDelimiter delimiters message) fun _ => k := by
  refine bind peek fun token => ?_
  split
  · exact pure rfl
  · exact fail _

/-! ## Loops -/

theorem loopWithin {round : σ → ParseM (Round σ β)} {I : σ → Nat}
    (hround : ∀ state, Tallies l (I state) (round state) (Round.weight I w'))
    (bound : Nat) (state : σ) : Tallies l (I state) (ParseM.loopWithin round bound state) w' := by
  induction bound generalizing state with
  | zero => exact throw _
  | succ bound ih =>
    refine bind (hround state) fun result => ?_
    cases result with
    | again state => exact ih state
    | done b => exact pure rfl

/-- A loop hands on from round to round what its state weighs. -/
theorem loop {round : σ → ParseM (Round σ β)} {I : σ → Nat}
    (hround : ∀ state, Tallies l (I state) (round state) (Round.weight I w'))
    (state : σ) : Tallies l (I state) (ParseM.loop round state) w' :=
  fun cursor => loopWithin hround cursor.budget state cursor

/-- A loop whose rounds make no nodes. -/
theorem loopPlain {round : σ → ParseM (Round σ β)}
    (hround : ∀ state, Tallies l k (round state) (Round.weight (fun _ => k) fun _ => k))
    (state : σ) : Tallies l k (ParseM.loop round state) fun _ => k :=
  loop (I := fun _ => k) hround state

theorem skipNewlines : Tallies l k ParseM.skipNewlines fun _ => k := by
  rw [skipNewlines_eq]
  refine loopPlain (fun state => bind peek fun token => ?_) ()
  split
  · exact bind advance fun _ => pure rfl
  · exact pure rfl

theorem items {closes : Token → Bool} {closing message : String} {item : ParseM α}
    (hitem : Tallies l k item fun _ => k) :
    Tallies l k (ParseM.items closes closing message item) fun _ => k := by
  rw [items_eq]
  refine bind (loopPlain (fun found => bind peek fun token => ?_) #[]) fun _ =>
    bind advance fun _ => pure rfl
  split
  · exact pure rfl
  · refine bind hitem fun _ => bind (expectDelimiter _ message) fun _ => bind peek fun token => ?_
    split
    · exact bind advance fun _ => pure rfl
    · exact pure rfl

theorem getBudget {f : Nat → ParseM α} (h : ∀ bound, Tallies l k (f bound) w) :
    Tallies l k (do f (← get).budget) w :=
  fun cursor => h cursor.budget cursor

end Tallies

end ParseM

end Offside
