import Offside.Proofs.Faults

/-!
# The order of the rules

Each rule of the language demands something of its token: a class, and perhaps a text
(`Grammar.demands`). Some rules look at the text alone, but the text of a delivered token settles its
class, so that no two rules accept the same token (`Grammar.countP_accepts_le`). Which rule is chosen
at a token of a text is then no question of their order, and neither is what a text is parsed to: the
same rules in another order keep in lockstep (`Grammar.standard_unambiguous`).
-/

namespace Offside

/-- What a rule demands of a token: its class, and that its text is one of some, unless any will do. -/
structure Demand where
  kind : Token.Kind
  texts : Option (List String) := none

namespace Demand

/-- Whether the token is what is demanded. -/
def meets (token : Token) (demand : Demand) : Bool :=
  token.kind == demand.kind && demand.texts.all (·.contains token.value)

/-- Whether no token can be what both demand. -/
def apart (demand demand' : Demand) : Bool :=
  demand.kind != demand'.kind ||
    match demand.texts, demand'.texts with
    | some texts, some texts' => texts.all fun text => !texts'.contains text
    | _, _ => false

variable {demand demand' : Demand} {demands : List Demand} {token : Token}

theorem not_meets_of_apart (hapart : demand.apart demand' = true) (h : demand.meets token = true) :
    demand'.meets token = false := by
  rw [meets, Bool.and_eq_true, beq_iff_eq] at h
  obtain ⟨hkind, htexts⟩ := h
  rw [apart, Bool.or_eq_true, bne_iff_ne] at hapart
  obtain hne | hdisjoint := hapart
  · rw [meets, hkind, beq_eq_false_iff_ne.2 hne, Bool.false_and]
  · split at hdisjoint
    · rename_i texts texts' heq heq'
      rw [heq, Option.all_some, List.contains_iff_mem] at htexts
      have hfree := List.all_eq_true.1 hdisjoint token.value htexts
      rw [Bool.not_eq_true'] at hfree
      rw [meets, heq', Option.all_some, hfree, Bool.and_false]
    · cases hdisjoint

/-- Of demands that are apart, a token meets one at the most. -/
theorem countP_meets_le_one (hapart : demands.Pairwise (apart · · = true)) :
    demands.countP (meets token) ≤ 1 := by
  induction demands with
  | nil => exact Nat.zero_le 1
  | cons demand demands ih =>
    obtain ⟨hothers, hapart⟩ := List.pairwise_cons.1 hapart
    cases h : demand.meets token with
    | false =>
      rw [List.countP_cons_of_neg (by simp [h])]
      exact ih hapart
    | true =>
      have hnone : demands.countP (meets token) = 0 := by
        refine List.countP_eq_zero.2 fun later hlater => ?_
        rw [not_meets_of_apart (hothers later hlater) h]
        exact Bool.false_ne_true
      refine Nat.le_of_eq ?_
      rw [List.countP_cons_of_pos h, hnone]

/-- Tests that accept only what is demanded accept no more often. -/
theorem countP_le {tests : List (Token → Bool)} (h : List.Forall₂
    (fun test demand => test token = true → demand.meets token = true) tests demands) :
    tests.countP (· token) ≤ demands.countP (meets token) := by
  induction h with
  | nil => exact Nat.le_refl 0
  | @cons test demand tests demands hfirst _ ih =>
    rw [List.countP_cons, List.countP_cons]
    cases htest : test token with
    | false => exact Nat.le_add_right_of_le ih
    | true =>
      rw [hfirst htest]
      exact Nat.add_le_add_right ih _

end Demand

namespace Grammar

variable {token : Token}

/-- What the rules of the language demand, those that start an expression first. -/
def demands : List Demand :=
  [⟨.keyword, some ["true", "false"]⟩, ⟨.integer, none⟩, ⟨.float, none⟩, ⟨.string, none⟩,
    ⟨.identifier, none⟩, ⟨.keyword, some ["module"]⟩, ⟨.keyword, some ["use"]⟩, ⟨.constant, none⟩,
    ⟨.leftParen, none⟩, ⟨.keyword, some ["fn"]⟩, ⟨.keyword, some ["if"]⟩] ++
  ["+", "-", "*", "/", "%", "&&", "||", "<", "<=", ">", ">=", "==", "!="].map
    (⟨.operator, some [·]⟩) ++
  [⟨.special, some ["="]⟩, ⟨.special, some ["->"]⟩]

theorem apart_demands : demands.Pairwise (Demand.apart · · = true) := by
  decide +kernel

theorem meets_kind {kind : Token.Kind} (h : (token.kind == kind) = true) :
    Demand.meets token ⟨kind, none⟩ = true := by
  simpa [Demand.meets] using h

theorem meets_kindAndText {kind : Token.Kind} {text : String}
    (h : (token.kind == kind && token.value == text) = true) :
    Demand.meets token ⟨kind, some [text]⟩ = true := by
  simpa [Demand.meets] using h

/-- The text of a delivered token settles the class of a mark. -/
theorem meets_mark {mark : String × Token.Kind} (hproper : token.Proper) (hmark : mark ∈ Token.marks)
    (h : (token.value == mark.1) = true) : Demand.meets token ⟨mark.2, some [mark.1]⟩ = true := by
  have hvalue := beq_iff_eq.1 h
  simp [Demand.meets, hvalue, hproper mark hmark hvalue]

/-- Each rule accepts only what it demands. -/
theorem forall₂_demands (hproper : token.Proper) : List.Forall₂
    (fun test demand => test token = true → Demand.meets token demand = true)
    (standardStarters.map (·.accepts) ++ standardExtenders.map (·.accepts)) demands := by
  have hbool (h : (token.value == "true" || token.value == "false") = true) :
      Demand.meets token ⟨.keyword, some ["true", "false"]⟩ = true := by
    rw [Bool.or_eq_true, beq_iff_eq, beq_iff_eq] at h
    obtain hvalue | hvalue := h
    · simp [Demand.meets, hvalue, hproper ("true", .keyword) (by decide) hvalue]
    · simp [Demand.meets, hvalue, hproper ("false", .keyword) (by decide) hvalue]
  have hassign := meets_mark hproper (by decide : ("=", .special) ∈ Token.marks)
  have hcall := meets_mark hproper (by decide : ("->", .special) ∈ Token.marks)
  exact .cons hbool <| .cons meets_kind <| .cons meets_kind <| .cons meets_kind <|
    .cons meets_kind <| .cons meets_kindAndText <| .cons meets_kindAndText <| .cons meets_kind <|
    .cons meets_kind <| .cons meets_kindAndText <| .cons meets_kindAndText <|
    .cons meets_kindAndText <| .cons meets_kindAndText <| .cons meets_kindAndText <|
    .cons meets_kindAndText <| .cons meets_kindAndText <| .cons meets_kindAndText <|
    .cons meets_kindAndText <| .cons meets_kindAndText <| .cons meets_kindAndText <|
    .cons meets_kindAndText <| .cons meets_kindAndText <| .cons meets_kindAndText <|
    .cons meets_kindAndText <| .cons hassign <| .cons hcall .nil

/-- No two rules accept the same token. -/
theorem countP_accepts_le (hproper : token.Proper) :
    standardStarters.countP (·.accepts token) + standardExtenders.countP (·.accepts token) ≤ 1 := by
  have hcount := Demand.countP_le (forall₂_demands hproper)
  rw [List.countP_append, List.countP_map, List.countP_map] at hcount
  exact Nat.le_trans hcount (Demand.countP_meets_le_one apart_demands)

/-! ## Choices -/

/-- Where one item at the most is accepted, the order of the items is no matter. -/
theorem find?_eq_of_perm {α : Type} {accepts : α → Bool} {items items' : List α}
    (h : items'.Perm items) (hone : items.countP accepts ≤ 1) :
    items'.find? accepts = items.find? accepts := by
  rw [List.countP_eq_length_filter] at hone
  rw [← List.head?_filter, ← List.head?_filter]
  have hfilter := h.filter accepts
  generalize items.filter accepts = found at hfilter hone
  match found with
  | [] => rw [List.perm_nil.1 hfilter]
  | [item] => rw [List.perm_singleton.1 hfilter]
  | _ :: _ :: _ => simp at hone

variable {grammar grammar' : Grammar} {stream : Token.Stream} {name : String}
  {hlexical : stream.Lexical} {source : String} {file : Option String}

/-- The same rules are chosen at a token as in the grammar of the language. -/
structure Chooses (grammar : Grammar) (token : Token) : Prop where
  starter : grammar.starter? token = standard.starter? token
  extender : grammar.extender? token = standard.extender? token

/-- A grammar that chooses the same rules at the tokens of a stream keeps in lockstep on it. -/
theorem agrees_of_chooses (h : ∀ token ∈ stream.emitted, grammar.Chooses token) :
    standard.Agrees (.onStream stream name hlexical) grammar := by
  intro n inner inner' hinner
  have hstandard := standard_agrees n inner inner' hinner
  constructor
  · intro token line column htokens
    have hrule := hstandard.starter token line column htokens
    obtain ⟨hmoved, hmem, -⟩ := htokens
    rw [hmoved] at hrule ⊢
    rwa [(h token hmem).starter]
  · intro token line column htokens
    have hrule := hstandard.extender token line column htokens
    obtain ⟨hmoved, hmem, -⟩ := htokens
    rw [hmoved] at hrule ⊢
    rwa [(h token hmem).extender]

/-- Grammars in lockstep on the stream of a text have the same result for it. -/
theorem Agrees.parse_eq (h : grammar.Agrees (.onStream (Token.Stream.ofText source file)
    (file.getD Scanner.unknownFile) (Token.Stream.lexical_ofText source file)) grammar') :
    (grammar'.parse source file).result = (grammar.parse source file).result := by
  rw [Grammar.parse_result, Grammar.parse_result]
  cases hstart : (Cursor.ofText source file _).result with
  | error fault => rfl
  | ok cursor =>
    have hagrees := h.program (P := ParseM.anyToken) (n := cursor.view.length + 1) cursor cursor
      ⟨Cursor.follows_ofText hstart, cursor.log, rfl⟩ (Nat.lt_succ_self _) trivial
    dsimp only
    generalize grammar.program cursor = result at hagrees
    generalize grammar'.program cursor = result' at hagrees
    cases result <;> cases result'
    case ok.ok block _ block' _ =>
      obtain ⟨-, -, -, hsame⟩ := hagrees
      rw [show (Lockstep.onStream _ _ _).place = id from rfl,
        show (Lockstep.onStream _ _ _).place' = id from rfl, Expr.relocateBlock_id,
        Expr.relocateBlock_id] at hsame
      exact congrArg Except.ok hsame.symm
    case ok.error => exact hagrees.elim
    case error.ok stop _ _ _ => cases stop <;> exact hagrees.elim
    case error.error stop _ stop' _ =>
      cases stop <;> cases stop' <;> try exact hagrees.elim
      exact congrArg (fun fault => Except.error (Stop.fault fault)) hagrees.1

/-- No token is accepted by two rules of the language, so the order of the rules is no matter to what
a text is parsed to. -/
theorem standard_unambiguous :
    (∀ token : Token, token.Delivered →
      standardStarters.countP (·.accepts token) + standardExtenders.countP (·.accepts token) ≤ 1) ∧
    ∀ starters extenders, starters.Perm standardStarters → extenders.Perm standardExtenders →
      ∀ source file, (Grammar.parse { starters, extenders } source file).result =
        (Offside.parse source file).result := by
  refine ⟨fun token h => countP_accepts_le h.regular.1, ?_⟩
  intro starters extenders hstarters hextenders source file
  refine (agrees_of_chooses fun token hmem => ?_).parse_eq
  obtain ⟨delivery, hdelivery, hresult⟩ := Cursor.mem_tokens hmem
  have hdelivered : token.Delivered := ⟨source, file, delivery, hdelivery, hresult⟩
  have hone := countP_accepts_le hdelivered.regular.1
  have hstarter : standardStarters.countP (·.accepts token) ≤ 1 := by omega
  have hextender : standardExtenders.countP (·.accepts token) ≤ 1 := by omega
  exact ⟨find?_eq_of_perm hstarters hstarter, find?_eq_of_perm hextenders hextender⟩

end Grammar

end Offside
