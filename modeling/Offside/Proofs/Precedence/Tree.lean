import Offside.Proofs.Phrase.Moved

/-!
# The tree of a line of operands

`Expr.tree` builds the tree of operands with infix tokens between them by splitting the line, with no
regard to how it is parsed: at the first `=` if there is one, and otherwise at the last of the tokens
that bind most weakly. What a parser needs to know is `tree_joined`: two operands whose token binds
more strongly than the next one can be joined first.
-/

namespace Offside

/-- The infix tokens, each with its power. -/
def Grammar.infixPowers : List (String × Power) :=
  operatorPowers ++ [("->", .call), ("=", .assignment)]

/-- The power of an infix token. -/
def Grammar.infixPower (operator : String) : Power :=
  (infixPowers.lookup operator).getD .lowest

open Grammar (infixPower)

namespace Expr

/-- What a token other than `=` makes of the expressions on both sides. -/
def joined (operator : String) (left right : Expr) : Expr :=
  if operator = "->" then .call {} right left.callArguments else .binary {} left operator right

/-- The part before the first `=`, the operand after it, and the part after that. -/
def splitAssign? : List (String × Expr) →
    Option (List (String × Expr) × Expr × List (String × Expr))
  | [] => none
  | (operator, operand) :: rest =>
    if operator = "=" then some ([], operand, rest)
    else (splitAssign? rest).map fun (before, value, after) =>
      ((operator, operand) :: before, value, after)

/-- The part before the last token of the least power, that token and the operand after it, and the
part after that. -/
def splitWeakest? : List (String × Expr) →
    Option (List (String × Expr) × (String × Expr) × List (String × Expr))
  | [] => none
  | link :: rest =>
    match splitWeakest? rest with
    | none => some ([], link, rest)
    | some (before, weakest, after) =>
      if infixPower link.1 < infixPower weakest.1 then some ([], link, rest)
      else some (link :: before, weakest, after)

variable {links before after : List (String × Expr)} {operator : String} {operand : Expr}

theorem splitAssign?_eq_some (h : splitAssign? links = some (before, operand, after)) :
    links = before ++ ("=", operand) :: after ∧ ∀ link ∈ before, link.1 ≠ "=" := by
  induction links generalizing before with
  | nil => cases h
  | cons link rest ih =>
    rw [splitAssign?] at h
    split at h
    · rename_i hequals
      cases h
      exact ⟨by rw [List.nil_append, ← hequals], by simp⟩
    · rename_i hequals
      obtain ⟨⟨before', _, _⟩, hrest, heq⟩ := Option.map_eq_some_iff.1 h
      cases heq
      obtain ⟨rfl, hbefore⟩ := ih hrest
      exact ⟨rfl, List.forall_mem_cons.2 ⟨hequals, hbefore⟩⟩

theorem splitAssign?_eq_none (h : splitAssign? links = none) : ∀ link ∈ links, link.1 ≠ "=" := by
  induction links with
  | nil => simp
  | cons link rest ih =>
    rw [splitAssign?] at h
    split at h
    · cases h
    · rename_i hequals
      exact List.forall_mem_cons.2 ⟨hequals, ih (Option.map_eq_none_iff.1 h)⟩

theorem splitAssign?_append (h : ∀ link ∈ before, link.1 ≠ "=") :
    splitAssign? (before ++ ("=", operand) :: after) = some (before, operand, after) := by
  induction before with
  | nil => rw [List.nil_append, splitAssign?, if_pos rfl]
  | cons link before ih =>
    obtain ⟨hlink, hbefore⟩ := List.forall_mem_cons.1 h
    rw [List.cons_append, splitAssign?, if_neg hlink, ih hbefore]
    rfl

theorem splitAssign?_of_ne (h : ∀ link ∈ links, link.1 ≠ "=") : splitAssign? links = none := by
  cases hsplit : splitAssign? links with
  | none => rfl
  | some parts =>
    obtain ⟨before, operand, after⟩ := parts
    obtain ⟨rfl, -⟩ := splitAssign?_eq_some hsplit
    exact absurd rfl (h ("=", operand) (by simp))

/-- Every line with infix tokens has a last one of the least power. -/
theorem exists_splitWeakest? (h : links ≠ []) :
    ∃ before weakest after, splitWeakest? links = some (before, weakest, after) := by
  cases links with
  | nil => exact absurd rfl h
  | cons link rest =>
    rw [splitWeakest?]
    split
    · exact ⟨_, _, _, rfl⟩
    · split
      · exact ⟨_, _, _, rfl⟩
      · exact ⟨_, _, _, rfl⟩

theorem splitWeakest?_eq_some {weakest : String × Expr}
    (h : splitWeakest? links = some (before, weakest, after)) :
    links = before ++ weakest :: after ∧
      (∀ link ∈ before, infixPower weakest.1 ≤ infixPower link.1) ∧
        ∀ link ∈ after, infixPower weakest.1 < infixPower link.1 := by
  induction links generalizing before weakest after with
  | nil => cases h
  | cons link rest ih =>
    rw [splitWeakest?] at h
    split at h
    · rename_i hnone
      cases h
      by_cases hnil : rest = []
      · exact ⟨rfl, by simp, by simp [hnil]⟩
      · obtain ⟨_, _, _, hsome⟩ := exists_splitWeakest? hnil
        rw [hnone] at hsome
        cases hsome
    · rename_i before' weakest' after' hrest
      obtain ⟨rfl, hbefore, hafter⟩ := ih hrest
      split at h
      · rename_i hlt
        cases h
        refine ⟨rfl, by simp, fun later hlater => ?_⟩
        rcases List.mem_append.1 hlater with hmem | hmem
        · exact Nat.lt_of_lt_of_le hlt (hbefore later hmem)
        · rcases List.mem_cons.1 hmem with rfl | hmem
          · exact hlt
          · exact Nat.lt_trans hlt (hafter later hmem)
      · rename_i hlt
        cases h
        exact ⟨rfl, List.forall_mem_cons.2 ⟨Nat.le_of_not_lt hlt, hbefore⟩, hafter⟩

theorem splitWeakest?_append {weakest : String × Expr}
    (hbefore : ∀ link ∈ before, infixPower weakest.1 ≤ infixPower link.1)
    (hafter : ∀ link ∈ after, infixPower weakest.1 < infixPower link.1) :
    splitWeakest? (before ++ weakest :: after) = some (before, weakest, after) := by
  induction before with
  | nil =>
    rw [List.nil_append, splitWeakest?]
    split
    · rfl
    · rename_i before' weakest' after' hsplit
      obtain ⟨rfl, -⟩ := splitWeakest?_eq_some hsplit
      rw [if_pos (hafter weakest' (by simp))]
  | cons link before ih =>
    obtain ⟨hlink, hbefore⟩ := List.forall_mem_cons.1 hbefore
    rw [List.cons_append, splitWeakest?, ih hbefore]
    exact if_neg (Nat.not_lt_of_le hlink)

/-- The tree of an operand and further ones, each after its infix token. -/
def tree (first : Expr) (links : List (String × Expr)) : Expr :=
  match _ : splitAssign? links with
  | some (before, value, after) => .assign {} (tree first before) (tree value after)
  | none =>
    match _ : splitWeakest? links with
    | some (before, (operator, operand), after) =>
      joined operator (tree first before) (tree operand after)
    | none => first
termination_by links.length
decreasing_by
  all_goals
    first
    | have := congrArg List.length (splitAssign?_eq_some ‹_›).1
    | have := congrArg List.length (splitWeakest?_eq_some ‹_›).1
    simp only [List.length_append, List.length_cons] at this
    omega

/-! ## How trees split -/

variable {first : Expr}

theorem tree_nil : tree first [] = first := by
  rw [tree]
  rfl

theorem tree_assign (h : ∀ link ∈ before, link.1 ≠ "=") :
    tree first (before ++ ("=", operand) :: after) =
      .assign {} (tree first before) (tree operand after) := by
  rw [tree]
  split
  · rename_i hsplit
    rw [splitAssign?_append h] at hsplit
    cases hsplit
    rfl
  · rename_i hsplit
    rw [splitAssign?_append h] at hsplit
    cases hsplit

theorem tree_assign_cons :
    tree first (("=", operand) :: after) = .assign {} first (tree operand after) := by
  have hsplit : ∀ link ∈ ([] : List (String × Expr)), link.1 ≠ "=" := by simp
  rw [← List.nil_append (("=", operand) :: after), tree_assign hsplit, tree_nil]

theorem tree_weakest
    (hbefore : ∀ link ∈ before, link.1 ≠ "=" ∧ infixPower operator ≤ infixPower link.1)
    (hoperator : operator ≠ "=")
    (hafter : ∀ link ∈ after, link.1 ≠ "=" ∧ infixPower operator < infixPower link.1) :
    tree first (before ++ (operator, operand) :: after) =
      joined operator (tree first before) (tree operand after) := by
  have hnone : splitAssign? (before ++ (operator, operand) :: after) = none := by
    refine splitAssign?_of_ne (List.forall_mem_append.2 ⟨fun link hlink => (hbefore link hlink).1,
      List.forall_mem_cons.2 ⟨hoperator, fun link hlink => (hafter link hlink).1⟩⟩)
  have hsome : splitWeakest? (before ++ (operator, operand) :: after) =
      some (before, (operator, operand), after) :=
    splitWeakest?_append (fun link hlink => (hbefore link hlink).2)
      fun link hlink => (hafter link hlink).2
  rw [tree]
  split
  · rename_i hsplit
    rw [hnone] at hsplit
    cases hsplit
  · split
    · rename_i hsplit
      rw [hsome] at hsplit
      cases hsplit
      rfl
    · rename_i hsplit
      rw [hsome] at hsplit
      cases hsplit

/-- A line of infix tokens is empty, or splits at its first `=`, or else at the last token of the
least power. -/
theorem split_induction {motive : List (String × Expr) → Prop} (nil : motive [])
    (assign : ∀ before operand after, (∀ link ∈ before, link.1 ≠ "=") → motive before →
      motive after → motive (before ++ ("=", operand) :: after))
    (weakest : ∀ before operator operand after,
      (∀ link ∈ before, link.1 ≠ "=" ∧ infixPower operator ≤ infixPower link.1) →
        operator ≠ "=" →
          (∀ link ∈ after, link.1 ≠ "=" ∧ infixPower operator < infixPower link.1) →
            motive before → motive after → motive (before ++ (operator, operand) :: after))
    (links : List (String × Expr)) : motive links := by
  induction hlength : links.length using Nat.strongRecOn generalizing links with
  | ind length ih =>
    subst hlength
    by_cases hnil : links = []
    · exact hnil ▸ nil
    cases hassign : splitAssign? links with
    | some parts =>
      obtain ⟨before, operand, after⟩ := parts
      obtain ⟨rfl, hbefore⟩ := splitAssign?_eq_some hassign
      rw [List.length_append, List.length_cons] at ih
      exact assign before operand after hbefore (ih _ (by omega) before rfl)
        (ih _ (by omega) after rfl)
    | none =>
      have hne := splitAssign?_eq_none hassign
      obtain ⟨before, ⟨operator, operand⟩, after, hweakest⟩ := exists_splitWeakest? hnil
      obtain ⟨rfl, hbefore, hafter⟩ := splitWeakest?_eq_some hweakest
      rw [List.forall_mem_append, List.forall_mem_cons] at hne
      obtain ⟨hne, hoperator, hne'⟩ := hne
      rw [List.length_append, List.length_cons] at ih
      exact weakest before operator operand after
        (fun link hlink => ⟨hne link hlink, hbefore link hlink⟩) hoperator
        (fun link hlink => ⟨hne' link hlink, hafter link hlink⟩) (ih _ (by omega) before rfl)
        (ih _ (by omega) after rfl)

theorem tree_single (hoperator : operator ≠ "=") :
    tree first [(operator, operand)] = joined operator first operand := by
  have htree : tree first ([] ++ [(operator, operand)]) =
      joined operator (tree first []) (tree operand []) :=
    tree_weakest (by simp) hoperator (by simp)
  rwa [List.nil_append, tree_nil, tree_nil] at htree

/-- Operands can be joined from the left: first all that bind more strongly than the token before
them, then that token, if none binds more strongly after it. -/
theorem tree_joined {tail : List (String × Expr)} (hoperator : operator ≠ "=")
    (hafter : ∀ link ∈ after, link.1 ≠ "=" ∧ infixPower operator < infixPower link.1)
    (htail : ∀ link ∈ tail.head?, infixPower link.1 ≤ infixPower operator) :
    tree (joined operator first (tree operand after)) tail =
      tree first ((operator, operand) :: after ++ tail) := by
  have hhead {before rest : List (String × Expr)} {next : String × Expr}
      (htail : ∀ link ∈ (before ++ next :: rest).head?, infixPower link.1 ≤ infixPower operator) :
      ∀ link ∈ before.head?, infixPower link.1 ≤ infixPower operator := by
    intro link hlink
    exact htail link (by rw [List.head?_append, Option.mem_def.1 hlink]; rfl)
  induction tail using split_induction with
  | nil =>
    rw [tree_nil, List.append_nil, ← List.nil_append ((operator, operand) :: after),
      tree_weakest (by simp) hoperator hafter, tree_nil]
  | assign before value rest hbefore ih =>
    have hbefore' : ∀ link ∈ (operator, operand) :: after ++ before, link.1 ≠ "=" :=
      List.forall_mem_append.2
        ⟨List.forall_mem_cons.2 ⟨hoperator, fun link hlink => (hafter link hlink).1⟩, hbefore⟩
    rw [tree_assign hbefore, ih (hhead htail), ← List.append_assoc, tree_assign hbefore']
  | weakest before operator' value rest hbefore hweakest hrest ih =>
    -- The first token of the tail binds no more strongly, and so neither does its weakest.
    have hle : infixPower operator' ≤ infixPower operator := by
      cases before with
      | nil => exact htail (operator', value) rfl
      | cons link before =>
        exact Nat.le_trans (hbefore link List.mem_cons_self).2 (htail link rfl)
    have hbefore' : ∀ link ∈ (operator, operand) :: after ++ before,
        link.1 ≠ "=" ∧ infixPower operator' ≤ infixPower link.1 := by
      refine List.forall_mem_append.2 ⟨List.forall_mem_cons.2 ⟨⟨hoperator, hle⟩, ?_⟩, hbefore⟩
      intro link hlink
      obtain ⟨hne, hlt⟩ := hafter link hlink
      exact ⟨hne, Nat.le_trans hle (Nat.le_of_lt hlt)⟩
    rw [tree_weakest hbefore hweakest hrest, ih (hhead htail), ← List.append_assoc,
      tree_weakest hbefore' hweakest hrest]

/-! ## Trees without places -/

theorem bareAll_callArguments (expr : Expr) :
    bareAll expr.callArguments = expr.bare.callArguments := by
  cases expr <;> rfl

theorem bare_joined (operator : String) (left right : Expr) :
    (joined operator left right).bare = joined operator left.bare right.bare := by
  unfold joined
  split
  · rw [bare, bareAll_callArguments]
  · rw [bare]

theorem bare_joined_congr {left right right' : Expr} (h : right'.bare = right.bare) :
    (joined operator left right').bare = (joined operator left right).bare := by
  rw [bare_joined, bare_joined, h]

/-- The bare form of a tree is the tree of the bare forms. -/
theorem bare_tree (first : Expr) (links : List (String × Expr)) :
    (tree first links).bare = tree first.bare (links.map (Prod.map id bare)) := by
  induction links using split_induction generalizing first with
  | nil => rw [List.map_nil, tree_nil, tree_nil]
  | assign before value rest hbefore ih ih' =>
    have hbefore' : ∀ link ∈ before.map (Prod.map id bare), link.1 ≠ "=" := by
      rw [List.forall_mem_map]
      exact hbefore
    rw [tree_assign hbefore, List.map_append, List.map_cons, bare, ih, ih']
    exact (tree_assign hbefore').symm
  | weakest before operator value rest hbefore hweakest hrest ih ih' =>
    rw [tree_weakest hbefore hweakest hrest, List.map_append, List.map_cons, bare_joined, ih, ih']
    refine (tree_weakest ?_ hweakest ?_).symm
    · rw [List.forall_mem_map]
      exact hbefore
    · rw [List.forall_mem_map]
      exact hrest

theorem bare_tree_congr {first first' : Expr} (h : first'.bare = first.bare)
    (links : List (String × Expr)) : (tree first' links).bare = (tree first links).bare := by
  rw [bare_tree, bare_tree, h]

end Expr

end Offside
