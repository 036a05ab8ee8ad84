import Offside.Proofs.Scanner.Laid
import Offside.Proofs.Phrase.Closing

/-!
# Lines of tokens

`Token.cutLines` cuts tokens at their newline tokens. A line begins with its newline token and the
shifts of the blocks, and the tokens of its text follow. `Token.depth` counts the blocks that are
open after some tokens, and `Token.stack` keeps their widths. Where no line between two of them is
less deep than the first, the widths of the first are still there in the second
(`Token.suffix_stack`), which settles how wide the second line is.
-/

namespace Offside.Token

/-- A newline token, the tokens by which blocks open or close after it, and those of the text up to
the next line. -/
structure Line where
  newline : Token
  shifts : List Token
  content : List Token

namespace Line

/-- The tokens by which the line begins. -/
def start (line : Line) : List Token :=
  line.newline :: line.shifts

def tokens (line : Line) : List Token :=
  line.start ++ line.content

/-- The number of spaces before the text of the line. -/
def width (source : String) (line : Line) : Nat :=
  Text.indentation source line.newline.line

/-- A line as line breaks make them: blocks open one at a time, and not while others close. -/
structure WellFormed (line : Line) : Prop where
  newline : line.newline.kind = .newline
  shifts : line.shifts.map kind = [] ∨ line.shifts.map kind = [.indent] ∨
    ∃ count, line.shifts.map kind = List.replicate (count + 1) .outdent
  content : ∀ token ∈ line.content, token.kind.isSynthetic = false
  number : ∀ token ∈ line.tokens, token.line = line.newline.line

end Line

/-- Whether a block opens or closes with the token. -/
def isShift (token : Token) : Bool :=
  token.kind == .indent || token.kind == .outdent

/-- Cuts tokens into those before the first newline token, and the lines from there on. -/
def cutLines : List Token → List Token × List Line
  | [] => ([], [])
  | token :: tokens =>
    let (first, lines) := cutLines tokens
    if token.isNewline then
      ([], ⟨token, first.takeWhile isShift, first.dropWhile isShift⟩ :: lines)
    else (token :: first, lines)

theorem cutLines_eq (token : Token) (tokens : List Token) :
    cutLines (token :: tokens) = if token.isNewline then
      ([], ⟨token, (cutLines tokens).1.takeWhile isShift, (cutLines tokens).1.dropWhile isShift⟩ ::
        (cutLines tokens).2)
    else (token :: (cutLines tokens).1, (cutLines tokens).2) :=
  rfl

/-- The number of blocks that open in the tokens, less those that close. -/
def depth (tokens : List Token) : Int :=
  tokens.countP (·.kind == .indent) - tokens.countP (·.kind == .outdent)

/-- The tokens before the text of the line at an index. -/
def before (first : List Token) (lines : List Line) (index : Nat) : List Token :=
  first ++ (lines.take index).flatMap Line.tokens ++ lines[index]?.elim [] Line.start

variable {token : Token} {tokens first shifts rest : List Token} {lines : List Line} {line : Line}

/-! ## Cutting -/

/-- No token is lost. -/
theorem append_cutLines (tokens : List Token) :
    (cutLines tokens).1 ++ (cutLines tokens).2.flatMap Line.tokens = tokens := by
  induction tokens with
  | nil => rfl
  | cons token tokens ih =>
    rw [cutLines_eq]
    split
    · rw [List.nil_append, List.flatMap_cons, Line.tokens, Line.start, List.cons_append,
        List.takeWhile_append_dropWhile, List.cons_append, ih]
    · rw [List.cons_append, ih]

theorem isNewline_of_plain (h : token.kind.isSynthetic = false) : token.isNewline = false := by
  rw [isNewline, beq_eq_false_iff_ne]
  intro hkind
  rw [hkind] at h
  cases h

theorem isShift_of_plain (h : token.kind.isSynthetic = false) : token.isShift = false := by
  rw [isShift, Bool.or_eq_false_iff, beq_eq_false_iff_ne, beq_eq_false_iff_ne]
  constructor <;> intro hkind <;> rw [hkind] at h <;> cases h

theorem isNewline_of_isShift (h : token.isShift = true) : token.isNewline = false := by
  rw [isShift, Bool.or_eq_true, beq_iff_eq, beq_iff_eq] at h
  rw [isNewline, beq_eq_false_iff_ne]
  intro hkind
  rw [hkind] at h
  simp at h

theorem cutLines_cons (h : token.isNewline = false) (tokens : List Token) :
    cutLines (token :: tokens) = (token :: (cutLines tokens).1, (cutLines tokens).2) := by
  rw [cutLines_eq, h]
  rfl

theorem cutLines_shifts (h : ∀ token ∈ shifts, token.isShift = true) (tokens : List Token) :
    cutLines (shifts ++ tokens) = (shifts ++ (cutLines tokens).1, (cutLines tokens).2) := by
  induction shifts with
  | nil => rfl
  | cons shift shifts ih =>
    obtain ⟨hshift, hshifts⟩ := List.forall_mem_cons.1 h
    rw [List.cons_append, cutLines_cons (isNewline_of_isShift hshift), ih hshifts]
    rfl

/-- A line is cut off where the tokens after its shifts are no shifts. -/
theorem cutLines_line (hnewline : token.isNewline = true)
    (hshifts : ∀ shift ∈ shifts, shift.isShift = true)
    (hplain : ∀ token ∈ (cutLines tokens).1, token.kind.isSynthetic = false) :
    cutLines (token :: (shifts ++ tokens)) =
      ([], ⟨token, shifts, (cutLines tokens).1⟩ :: (cutLines tokens).2) := by
  have hstop : ∀ token ∈ (cutLines tokens).1.head?, token.isShift = false :=
    fun token hmem => isShift_of_plain (hplain token (List.mem_of_mem_head? hmem))
  have htake : (shifts ++ (cutLines tokens).1).takeWhile isShift = shifts ∧
      (shifts ++ (cutLines tokens).1).dropWhile isShift = (cutLines tokens).1 := by
    rw [List.takeWhile_append_of_pos hshifts, List.dropWhile_append_of_pos hshifts]
    cases hfirst : (cutLines tokens).1 with
    | nil => simp
    | cons token others =>
      rw [hfirst] at hstop
      simp [hstop token rfl]
  rw [cutLines_eq, if_pos hnewline, cutLines_shifts hshifts, htake.1, htake.2]

/-! ## Depth -/

theorem depth_append (tokens rest : List Token) :
    depth (tokens ++ rest) = depth tokens + depth rest := by
  simp only [depth, List.countP_append]
  omega

theorem Nests.depth_singleton {depth depth' : Nat} (h : token.Nests depth depth') :
    Token.depth [token] = depth' - depth := by
  rw [Token.depth, List.countP_singleton, List.countP_singleton]
  by_cases hindent : token.kind = .indent
  · have hdepth := (h.indent hindent).2
    rw [hindent, if_pos (beq_self_eq_true _), if_neg (by decide)]
    omega
  · by_cases houtdent : token.kind = .outdent
    · have hdepth := (h.outdent houtdent).2
      rw [houtdent, if_neg (by decide), if_pos (beq_self_eq_true _)]
      omega
    · rw [h.plain hindent houtdent, if_neg (by simp [hindent]), if_neg (by simp [houtdent])]
      omega

theorem Leads.depth_eq {depth depth' : Nat} (h : Leads depth tokens depth') :
    Token.depth tokens = depth' - depth := by
  induction h with
  | nil => simp [Token.depth]
  | @cons depth middle depth' token tokens hnests _ ih =>
    have htoken := hnests.depth_singleton
    rw [← List.singleton_append, depth_append]
    omega

theorem leads_append_iff {depth depth' : Nat} :
    Leads depth (tokens ++ rest) depth' ↔
      ∃ middle, Leads depth tokens middle ∧ Leads middle rest depth' := by
  constructor
  · intro h
    induction tokens generalizing depth with
    | nil => exact ⟨depth, .nil, h⟩
    | cons token tokens ih =>
      obtain _ | ⟨hnests, h⟩ := h
      obtain ⟨middle, htokens, hrest⟩ := ih h
      exact ⟨middle, .cons hnests htokens, hrest⟩
  · rintro ⟨middle, htokens, hrest⟩
    induction htokens with
    | nil => exact hrest
    | cons hnests _ ih => exact .cons hnests (ih hrest)

/-! ## Widths -/

/-- The widths of the open blocks after the tokens, where `w` is the width of a line. -/
def stack (w : Nat → Nat) : List Nat → List Token → List Nat
  | widths, [] => widths
  | widths, token :: tokens =>
    match token.kind with
    | .indent => stack w (w token.line :: widths) tokens
    | .outdent => stack w widths.tail tokens
    | _ => stack w widths tokens

section

variable {w : Nat → Nat} {widths : List Nat}

theorem stack_indent (h : token.kind = .indent) :
    stack w widths (token :: tokens) = stack w (w token.line :: widths) tokens := by
  rw [stack, h]

theorem stack_outdent (h : token.kind = .outdent) :
    stack w widths (token :: tokens) = stack w widths.tail tokens := by
  rw [stack, h]

theorem stack_cons (hindent : token.kind ≠ .indent) (houtdent : token.kind ≠ .outdent) :
    stack w widths (token :: tokens) = stack w widths tokens := by
  rw [stack]
  revert hindent houtdent
  cases token.kind <;> simp

theorem stack_append (tokens rest : List Token) :
    stack w widths (tokens ++ rest) = stack w (stack w widths tokens) rest := by
  induction tokens generalizing widths with
  | nil => rfl
  | cons token tokens ih =>
    by_cases hindent : token.kind = .indent
    · rw [List.cons_append, stack_indent hindent, stack_indent hindent, ih]
    · by_cases houtdent : token.kind = .outdent
      · rw [List.cons_append, stack_outdent houtdent, stack_outdent houtdent, ih]
      · rw [List.cons_append, stack_cons hindent houtdent, stack_cons hindent houtdent, ih]

theorem stack_of_plain (h : ∀ token ∈ tokens, token.kind.isSynthetic = false) :
    stack w widths tokens = widths := by
  induction tokens with
  | nil => rfl
  | cons token tokens ih =>
    obtain ⟨htoken, htokens⟩ := List.forall_mem_cons.1 h
    rw [stack_cons, ih htokens]
    · intro hkind
      rw [hkind] at htoken
      cases htoken
    · intro hkind
      rw [hkind] at htoken
      cases htoken

theorem laid_append_iff : Laid w widths (tokens ++ rest) ↔
    Laid w widths tokens ∧ Laid w (stack w widths tokens) rest := by
  induction tokens generalizing widths with
  | nil => exact (and_iff_right trivial).symm
  | cons token tokens ih =>
    rw [List.cons_append]
    by_cases hindent : token.kind = .indent
    · rw [laid_indent hindent, laid_indent hindent, stack_indent hindent, ih, and_assoc]
    · by_cases houtdent : token.kind = .outdent
      · rw [laid_outdent houtdent, laid_outdent houtdent, stack_outdent houtdent, ih]
      · rw [stack_cons hindent houtdent]
        by_cases hnewline : token.kind = .newline
        · rw [laid_newline hnewline, laid_newline hnewline, ih]
        · have hplain : token.kind ∉ [Kind.newline, .indent, .outdent] := by
            simp [hnewline, hindent, houtdent]
          rw [laid_plain hplain, laid_plain hplain, ih, and_assoc]

/-- The stack is as high as the blocks are deep. -/
theorem length_stack {depth depth' : Nat} (h : Leads depth tokens depth')
    (hwidths : widths.length = depth + 1) : (stack w widths tokens).length = depth' + 1 := by
  induction h generalizing widths with
  | nil => exact hwidths
  | @cons depth middle depth' token tokens hnests _ ih =>
    by_cases hindent : token.kind = .indent
    · rw [stack_indent hindent]
      refine ih ?_
      rw [List.length_cons, hwidths, (hnests.indent hindent).2]
    · by_cases houtdent : token.kind = .outdent
      · rw [stack_outdent houtdent]
        refine ih ?_
        rw [List.length_tail, hwidths, (hnests.outdent houtdent).2]
        rfl
      · rw [stack_cons hindent houtdent]
        exact ih (by rw [hwidths, hnests.plain hindent houtdent])

/-- Laid tokens let the widths grow from the outside to the inside. -/
theorem pairwise_stack (h : Laid w widths tokens) (hwidths : widths.Pairwise (· > ·)) :
    (stack w widths tokens).Pairwise (· > ·) := by
  induction tokens generalizing widths with
  | nil => exact hwidths
  | cons token tokens ih =>
    by_cases hindent : token.kind = .indent
    · rw [laid_indent hindent] at h
      rw [stack_indent hindent]
      refine ih h.2 (List.pairwise_cons.2 ⟨fun outer houter => ?_, hwidths⟩)
      cases widths with
      | nil => cases houter
      | cons inner others =>
        rcases List.mem_cons.1 houter with rfl | hmem
        · exact h.1
        · exact Nat.lt_trans ((List.pairwise_cons.1 hwidths).1 outer hmem) h.1
    · by_cases houtdent : token.kind = .outdent
      · rw [laid_outdent houtdent] at h
        rw [stack_outdent houtdent]
        exact ih h (hwidths.sublist (List.tail_sublist widths))
      · rw [stack_cons hindent houtdent]
        refine ih ?_ hwidths
        by_cases hnewline : token.kind = .newline
        · rwa [laid_newline hnewline] at h
        · rw [laid_plain (by simp [hnewline, hindent, houtdent])] at h
          exact h.2

theorem stack_outdents (h : ∀ token ∈ tokens, token.kind = .outdent) :
    stack w widths tokens <:+ widths := by
  induction tokens generalizing widths with
  | nil => exact List.suffix_rfl
  | cons token tokens ih =>
    obtain ⟨htoken, htokens⟩ := List.forall_mem_cons.1 h
    rw [stack_outdent htoken]
    exact (ih htokens).trans (List.tail_suffix widths)

/-! ## Widths of lines -/

/-- A line adds to the widths, or takes some of them away, but not both. -/
theorem Line.WellFormed.suffix_stack (h : line.WellFormed) :
    widths <:+ stack w widths line.start ∨ stack w widths line.start <:+ widths := by
  rw [start, stack_cons (by simp [h.newline]) (by simp [h.newline])]
  obtain hnone | hindent | ⟨count, houtdents⟩ := h.shifts
  · rw [List.map_eq_nil_iff.1 hnone]
    exact .inl List.suffix_rfl
  · obtain ⟨shift, hshift, hkind⟩ := List.map_eq_singleton_iff.1 hindent
    rw [hshift, stack_indent hkind]
    exact .inl (List.suffix_cons _ _)
  · refine .inr (stack_outdents fun shift hshift => ?_)
    exact List.eq_of_mem_replicate (houtdents ▸ List.mem_map_of_mem hshift)

/-- The line at an index is a part of the tokens. -/
theorem exists_append_before {index : Nat} (first : List Token) (h : lines[index]? = some line) :
    ∃ rest, first ++ lines.flatMap Line.tokens =
      before first lines index ++ (line.content ++ rest) := by
  obtain ⟨hindex, hline⟩ := List.getElem?_eq_some_iff.1 h
  have hsplit := List.take_append_drop index lines
  rw [List.drop_eq_getElem_cons hindex, hline] at hsplit
  refine ⟨(lines.drop (index + 1)).flatMap Line.tokens, ?_⟩
  have hall := congrArg (List.flatMap Line.tokens) hsplit
  rw [List.flatMap_append, List.flatMap_cons] at hall
  rw [before, h, Option.elim_some, ← hall, Line.tokens]
  simp only [List.append_assoc]

theorem before_succ {index : Nat} {next : Line} (first : List Token)
    (h : lines[index]? = some line) (hnext : lines[index + 1]? = some next) :
    before first lines (index + 1) = before first lines index ++ (line.content ++ next.start) := by
  rw [before, before, h, hnext, List.take_add_one, h]
  simp [Line.tokens]

/-- The widths around a line are still there in a later one, if no line on the way is less deep. -/
theorem suffix_stack {i j : Nat} (hij : i ≤ j) (hj : j < lines.length)
    (hlines : ∀ line ∈ lines, line.WellFormed)
    (hlength : ∀ k, i < k → k ≤ j → (stack w widths (before first lines i)).length ≤
      (stack w widths (before first lines k)).length) :
    stack w widths (before first lines i) <:+ stack w widths (before first lines j) := by
  induction hij with
  | refl => exact List.suffix_rfl
  | @step j hij ih =>
    have hearlier := ih (by omega) fun k hik hkj => hlength k hik (by omega)
    have hline : lines[j]? = some lines[j] := List.getElem?_eq_getElem (by omega)
    have hnext : lines[j + 1]? = some lines[j + 1] := List.getElem?_eq_getElem hj
    have hlength := hlength (j + 1) (Nat.lt_succ_of_le hij) (Nat.le_refl _)
    rw [before_succ first hline hnext, stack_append, stack_append,
      stack_of_plain (hlines _ (List.getElem_mem _)).content] at hlength ⊢
    obtain hmore | hless := (hlines _ (List.getElem_mem hj)).suffix_stack
    · exact hearlier.trans hmore
    · exact List.suffix_of_suffix_length_le hearlier hless hlength

/-- The text of a line stands in the innermost block. -/
theorem headD_stack {index : Nat} (h : lines[index]? = some line)
    (hlaid : Laid w widths (first ++ lines.flatMap Line.tokens)) (hline : line.WellFormed)
    (hne : line.content ≠ []) :
    (stack w widths (before first lines index)).headD 0 = w line.newline.line := by
  obtain ⟨rest, hrest⟩ := exists_append_before first h
  obtain ⟨token, others, hcontent⟩ := List.exists_cons_of_ne_nil hne
  rw [hrest, laid_append_iff, hcontent, List.cons_append] at hlaid
  have hmem : token ∈ line.content := by simp [hcontent]
  have hkind := hline.content token hmem
  have hplain : token.kind ∉ [Kind.newline, .indent, .outdent] := by
    revert hkind
    cases token.kind <;> simp [Kind.isSynthetic]
  rw [← hline.number token (List.mem_append_right _ hmem)]
  exact ((laid_plain hplain).1 hlaid.2).1.symm

end

/-- How the widths of two lines compare where no line after the first, up to the other, is less deep
than it. -/
def Follows (source : String) (first : List Token) (lines : List Line) (i j : Nat) : Prop :=
  ∀ line line', lines[i]? = some line → lines[j]? = some line' →
    (∀ k, i < k → k ≤ j → depth (before first lines i) ≤ depth (before first lines k)) →
      (depth (before first lines j) = depth (before first lines i) →
        line'.width source = line.width source) ∧
      (depth (before first lines i) < depth (before first lines j) →
        line.width source < line'.width source)

/-- The widths before a line are as many as the blocks that are open there, and one. -/
theorem exists_height {w : Nat → Nat} {index deep : Nat} (hindex : index < lines.length)
    (h : Leads 0 (first ++ lines.flatMap Line.tokens) deep) :
    ∃ height : Nat, (stack w [0] (before first lines index)).length = height + 1 ∧
      depth (before first lines index) = height := by
  obtain ⟨rest, hrest⟩ := exists_append_before first (List.getElem?_eq_getElem hindex)
  rw [hrest, leads_append_iff] at h
  obtain ⟨height, hbefore, -⟩ := h
  exact ⟨height, length_stack hbefore rfl, by rw [hbefore.depth_eq]; omega⟩

/-- Lines with text are as wide as their blocks. -/
theorem follows {source : String} {i j deep : Nat} (hij : i < j)
    (hlaid : Laid (Text.indentation source) [0] (first ++ lines.flatMap Line.tokens))
    (hleads : Leads 0 (first ++ lines.flatMap Line.tokens) deep)
    (hlines : ∀ line ∈ lines, line.WellFormed)
    (hinner : ∀ line ∈ lines.dropLast, line.content ≠ [])
    (hj : ∀ line ∈ lines[j]?, line.content ≠ []) : Follows source first lines i j := by
  intro line line' hline hline' hdepth
  obtain ⟨hjlength, -⟩ := List.getElem?_eq_some_iff.1 hline'
  have hi : line.content ≠ [] := by
    have hmem := List.mem_of_getElem? (l := lines.dropLast) (i := i) (a := line)
    rw [List.getElem?_dropLast, if_pos (by omega)] at hmem
    exact hinner line (hmem hline)
  have hheight {k : Nat} (hk : k ≤ j) := exists_height (w := Text.indentation source)
    (Nat.lt_of_le_of_lt hk hjlength) hleads
  obtain ⟨height, hheighti, hdepthi⟩ := hheight (Nat.le_of_lt hij)
  obtain ⟨height', hheightj, hdepthj⟩ := hheight (Nat.le_refl j)
  have hsuffix : stack (Text.indentation source) [0] (before first lines i) <:+
      stack (Text.indentation source) [0] (before first lines j) := by
    refine suffix_stack (Nat.le_of_lt hij) hjlength hlines fun k hik hkj => ?_
    obtain ⟨heightk, hheightk, hdepthk⟩ := hheight hkj
    have := hdepth k hik hkj
    omega
  have hwidth := headD_stack hline hlaid (hlines _ (List.mem_of_getElem? hline)) hi
  have hwidth' := headD_stack hline' hlaid (hlines _ (List.mem_of_getElem? hline')) (hj _ hline')
  rw [Line.width, Line.width, ← hwidth, ← hwidth']
  -- The widths of the first line are the outer ones of the other: all of them, or an inner block
  -- stands on top of them.
  constructor
  · intro hsame
    rw [hsuffix.eq_of_length (by omega)]
  · intro hdeeper
    obtain ⟨rest, hrest⟩ := exists_append_before first hline'
    rw [hrest, laid_append_iff] at hlaid
    have hpairwise := pairwise_stack hlaid.1 (List.pairwise_singleton _ _)
    obtain ⟨width, widths, hwidths⟩ := List.exists_cons_of_length_eq_add_one hheighti
    obtain ⟨inner, hinner⟩ := hsuffix
    rw [← hinner, hwidths] at hpairwise hheightj ⊢
    rw [hwidths] at hheighti
    cases inner with
    | nil =>
      rw [List.nil_append] at hheightj
      omega
    | cons innermost inner =>
      exact (List.pairwise_cons.1 hpairwise).1 width (by simp)

end Offside.Token
