import Offside.Proofs.Scanner.Spells

/-!
# Texts laid out in lines

A text whose blocks are two columns wider than what is around them. Inside `depth` blocks the open
widths are `Layout.nested depth`, and the next line goes one block deeper or leaves some of them.
`Scanner.Lays` says which tokens the lines of such a text are read as, line ends and all, with rules
for a single line (`lays_textLine`), for a line with a block (`Lays.block`), and for one text after
another (`Lays.append`).
-/

namespace Offside

namespace Layout

/-- The widths inside `depth` blocks, each of them two columns wider than the one around it. -/
def nested : Nat → List Nat
  | 0 => [0]
  | depth + 1 => 2 * (depth + 1) :: nested depth

variable {depth depth' : Nat}

theorem width_nested (depth : Nat) : (mk (nested depth)).width = 2 * depth := by
  cases depth <;> rfl

theorem length_nested (depth : Nat) : (nested depth).length = depth + 1 := by
  induction depth with
  | zero => rfl
  | succ depth ih => rw [nested, List.length_cons, ih]

/-! ## One block deeper -/

theorem enter_deeper (depth : Nat) :
    (mk (nested depth)).enter (2 * (depth + 1)) = ⟨nested (depth + 1)⟩ := by
  rw [enter, width_nested, if_pos (by omega), nested]

theorem breaks?_deeper (depth : Nat) :
    (mk (nested depth)).breaks? (2 * (depth + 1)) = some [.indent] := by
  rw [breaks?, shift, width_nested, if_pos (by omega)]

/-! ## Out of blocks -/

theorem split_nested (h : depth' ≤ depth) :
    ((nested depth).takeWhile (2 * depth' < ·)).length = depth - depth' ∧
      (nested depth).dropWhile (2 * depth' < ·) = nested depth' := by
  induction depth with
  | zero =>
    obtain rfl : depth' = 0 := by omega
    exact ⟨rfl, rfl⟩
  | succ depth ih =>
    rcases Nat.lt_or_eq_of_le h with hlt | rfl
    · obtain ⟨htake, hdrop⟩ := ih (by omega)
      have hwider : decide (2 * depth' < 2 * (depth + 1)) = true := decide_eq_true (by omega)
      rw [nested, List.takeWhile_cons, List.dropWhile_cons, if_pos hwider, if_pos hwider,
        List.length_cons, htake]
      exact ⟨by omega, hdrop⟩
    · have hsame : ¬ decide (2 * (depth + 1) < 2 * (depth + 1)) = true := by simp
      rw [nested, List.takeWhile_cons, List.dropWhile_cons, if_neg hsame, if_neg hsame]
      exact ⟨by simp, rfl⟩

theorem enter_back (h : depth' ≤ depth) :
    (mk (nested depth)).enter (2 * depth') = ⟨nested depth'⟩ := by
  rw [enter, width_nested, if_neg (by omega), (split_nested h).2]

theorem breaks?_back (h : depth' ≤ depth) :
    (mk (nested depth)).breaks? (2 * depth') = some (List.replicate (depth - depth') .outdent) := by
  rw [breaks?, shift, width_nested, if_neg (by omega), enter_back h, width_nested]
  rcases Nat.lt_or_eq_of_le h with hlt | rfl
  · have hlength : ((nested depth).tail.take (depth - depth')).length = depth - depth' := by
      rw [List.length_take, List.length_tail, length_nested]
      omega
    rw [if_pos (by omega)]
    show (if 2 * depth' = 2 * depth' then some (List.map _ _) else none) = _
    rw [if_pos rfl, (split_nested h).1, List.map_const', hlength]
  · rw [if_neg (by omega), Nat.sub_self]
    rfl

end Layout

namespace Scanner

open Layout (nested)
open Text (Apart apart_cons)

variable {depth : Nat} {text text' : String} {tokens tokens' : List Token} {rest : List Char}

/-! ## Line ends -/

/-- The spaces before a line inside `depth` blocks. -/
def margin (depth : Nat) : List Char :=
  List.replicate (2 * depth) ' '

/-- The first word of a line inside `depth` blocks is ahead, or the end of the text, which is outside
all blocks. -/
def StartsLine (depth : Nat) (rest : List Char) : Prop :=
  (∀ c ∈ rest.head?, c ≠ ' ' ∧ c ≠ '\n') ∧ (rest = [] → depth = 0)

theorem Reads.deeper (depth : Nat) (h : StartsLine (depth + 1) rest) :
    Reads (nested depth) ('\n' :: (margin (depth + 1) ++ rest))
      [.bare .newline "\n", .bare .indent ""] (nested (depth + 1)) rest := by
  have hbreak := Reads.lineBreak (Layout.breaks?_deeper depth) h.1 fun hnil => by
    have := h.2 hnil
    omega
  rwa [Layout.enter_deeper] at hbreak

theorem Reads.back {depth' : Nat} (hdepth : depth' ≤ depth) (h : StartsLine depth' rest) :
    Reads (nested depth) ('\n' :: (margin depth' ++ rest))
      (.bare .newline "\n" :: List.replicate (depth - depth') (.bare .outdent "")) (nested depth')
      rest := by
  have hbreak := Reads.lineBreak (Layout.breaks?_back hdepth) h.1 fun hnil => by
    have := h.2 hnil
    omega
  rwa [Layout.enter_back hdepth, List.map_replicate] at hbreak

/-! ## Lines -/

/-- A line with its end. -/
def textLine (depth : Nat) (text : String) : String :=
  String.ofList (margin depth) ++ text ++ "\n"

/-- The text begins with a word. -/
def Begins (text : String) : Prop :=
  ∃ c rest, text.toList = c :: rest ∧ c ≠ ' ' ∧ c ≠ '\n'

/-- From its first word on, the text in lines inside `depth` blocks and deeper ones is read as the
tokens up to the line after it, where the blocks close that this line is outside of. -/
def Lays (depth : Nat) (text : String) (tokens : List Token) : Prop :=
  ∀ depth' ≤ depth, ∀ rest, StartsLine depth' rest → ∃ ahead,
    text.toList ++ (margin depth' ++ rest) = margin depth ++ ahead ∧ StartsLine depth ahead ∧
      Reads (nested depth) ahead (tokens ++ List.replicate (depth - depth') (.bare .outdent ""))
        (nested depth') rest

theorem Begins.append (h : Begins text) (text' : String) : Begins (text ++ text') := by
  obtain ⟨c, rest, htext, hc⟩ := h
  exact ⟨c, rest ++ text'.toList, by rw [String.toList_append, htext, List.cons_append], hc⟩

theorem Begins.startsLine (h : Begins text) (depth : Nat) (rest : List Char) :
    StartsLine depth (text.toList ++ rest) := by
  obtain ⟨c, others, htext, hc⟩ := h
  rw [htext]
  refine ⟨fun first hfirst => ?_, nofun⟩
  cases hfirst
  exact hc

theorem toList_textLine (depth : Nat) (text : String) (rest : List Char) :
    (textLine depth text).toList ++ rest = margin depth ++ (text.toList ++ '\n' :: rest) := by
  rw [textLine, String.toList_append, String.toList_append, String.toList_ofList, List.append_assoc,
    List.append_assoc]
  rfl

theorem lays_textLine (h : Spells text tokens) (hbegins : Begins text) :
    Lays depth (textLine depth text) (tokens ++ [.bare .newline "\n"]) := by
  intro depth' hdepth rest hrest
  refine ⟨_, toList_textLine depth text _, hbegins.startsLine depth _, ?_⟩
  rw [List.append_assoc]
  exact (h _ _ (apart_cons (c := '\n') _)).trans (.back hdepth hrest)

/-- A line with a block after it. -/
theorem Lays.block (h : Spells text tokens) (hbegins : Begins text)
    (hblock : Lays (depth + 1) text' tokens') :
    Lays depth (textLine depth text ++ text')
      (tokens ++ .bare .newline "\n" :: .bare .indent "" :: (tokens' ++ [.bare .outdent ""])) := by
  intro depth' hdepth rest hrest
  obtain ⟨ahead, htext', hahead, hreads⟩ := hblock depth' (by omega) rest hrest
  refine ⟨_, ?_, hbegins.startsLine depth ('\n' :: (margin (depth + 1) ++ ahead)), ?_⟩
  · rw [String.toList_append, List.append_assoc, htext', toList_textLine]
  · have hall := (h _ _ (apart_cons (c := '\n') _)).trans ((Reads.deeper depth hahead).trans hreads)
    rw [Nat.succ_sub hdepth, List.replicate_succ] at hall
    simpa using hall

theorem Lays.append (h : Lays depth text tokens) (h' : Lays depth text' tokens') :
    Lays depth (text ++ text') (tokens ++ tokens') := by
  intro depth' hdepth rest hrest
  obtain ⟨ahead', htext', hahead', hreads'⟩ := h' depth' hdepth rest hrest
  obtain ⟨ahead, htext, hahead, hreads⟩ := h depth (Nat.le_refl _) ahead' hahead'
  rw [Nat.sub_self, List.replicate_zero, List.append_nil] at hreads
  refine ⟨ahead, ?_, hahead, ?_⟩
  · rw [String.toList_append, List.append_assoc, htext', htext]
  · rw [List.append_assoc]
    exact hreads.trans hreads'

/-- Lines outside all blocks are read to the end. -/
theorem Lays.reads (h : Lays 0 text tokens) : Reads [0] text.toList tokens [0] [] := by
  obtain ⟨ahead, htext, -, hreads⟩ := h 0 (Nat.le_refl _) [] ⟨nofun, fun _ => rfl⟩
  have htext : text.toList = ahead := by simpa [margin] using htext
  rw [htext]
  simpa [nested] using hreads

end Scanner

end Offside
