import Offside.Scanner.Basic
/-!
# Token streams

`Scanner.stream` walks a scanner to its end and keeps what it delivers. The deliveries of a scanner
settle: either the text is used up, and the end token comes for ever, or the scanner stands before
text that no pattern accepts, and that fault comes for ever. A stream is therefore a list of
deliveries and one that repeats. `Token.Stream.tokens` are the tokens of a text, unless there is a
fault among them.

The walk ends because each delivery but the last takes away from `Scanner.work`.
-/

namespace Offside

namespace Delivery

/-- Whether a scanner that delivers this delivers nothing else from then on. -/
def isLast (delivery : Delivery) : Bool :=
  match delivery.result with
  | .ok token => token.isEnd
  | .error ⟨.unrecognised _, _⟩ => true
  | .error _ => false

end Delivery

/-! ## The work that is left -/

theorem LineStart.length_rest_seek (breaks width : Nat) (text : List Char) :
    (seek breaks width text).rest.length ≤ text.length := by
  fun_induction seek breaks width text with
  | case1 _ _ _ ih => exact Nat.le_succ_of_le ih
  | case2 _ _ _ ih => exact Nat.le_succ_of_le ih
  | case3 => exact Nat.le_refl _

namespace Scanner

/-- A bound on the tokens that a scanner has yet to deliver. A character accounts for three: a line
break can make a newline token and open a block, which has to be closed again. -/
def work (scanner : Scanner) : Nat :=
  3 * scanner.rest.length + scanner.layout.widths.length + scanner.pending.length

theorem work_skipSpaces_le (scanner : Scanner) : scanner.skipSpaces.work ≤ scanner.work := by
  have := congrArg List.length
    (List.takeWhile_append_dropWhile (p := (· == ' ')) (l := scanner.rest))
  simp only [List.length_append] at this
  simp only [work, skipSpaces]
  omega

theorem work_breakLine_lt {scanner : Scanner} {rest : List Char}
    (h : scanner.rest = '\n' :: rest) (hp : scanner.pending = []) :
    (scanner.breakLine rest).2.work < scanner.work := by
  have hseek := LineStart.length_rest_seek 1 0 rest
  simp only [breakLine]
  split
  · rename_i hshift
    have := Layout.length_enter_le_of_shift_stay hshift
    simp only [release, enterLine, work, h, hp, List.length_cons, List.length_nil]
    omega
  · rename_i hshift
    have := Layout.length_enter_of_shift_deeper hshift
    simp only [release, enterLine, work, h, hp, List.length_cons, List.length_nil]
    omega
  · rename_i hshift
    have := Layout.length_enter_add_of_shift_back hshift
    split <;>
      simp only [release, enterLine, work, h, hp, List.length_cons, List.length_nil,
        List.length_map] <;>
      omega

theorem work_cutToken_lt {scanner : Scanner} (h : ¬ scanner.cutToken.1.isLast)
    (hp : scanner.pending = []) : scanner.cutToken.2.work < scanner.work := by
  unfold cutToken at h ⊢
  split
  · rename_i hcut
    have := Token.length_lt_of_cut? hcut
    simp only [release, work, hp, List.length_nil]
    omega
  · rename_i hcut
    simp [hcut, Delivery.isLast, fault] at h

/-- A delivery that is not the last takes work away. -/
theorem work_next_lt {scanner : Scanner} (h : ¬ scanner.next.1.isLast) :
    scanner.next.2.work < scanner.work := by
  unfold next at h ⊢
  cases hp : scanner.pending with
  | cons token others =>
    simp only [release, work, hp, List.length_cons]
    omega
  | nil =>
    have hskip := scanner.work_skipSpaces_le
    have hp' : scanner.skipSpaces.pending = [] := hp
    simp only [hp] at h ⊢
    split at h
    · simp [Delivery.isLast, Token.isEnd, endToken] at h
    · rename_i hrest
      exact Nat.lt_of_lt_of_le (work_breakLine_lt hrest hp') hskip
    · exact Nat.lt_of_lt_of_le (work_cutToken_lt h hp') hskip

end Scanner

/-! ## Streams -/

/-- The deliveries to come: those in `ahead`, and after them `last` over and over. -/
structure Token.Stream where
  ahead : List Delivery
  last : Delivery

/-- All that a scanner is going to deliver. -/
def Scanner.stream (scanner : Scanner) : Token.Stream :=
  let delivery := scanner.next.1
  if _ : delivery.isLast then ⟨[], delivery⟩
  else
    let stream := scanner.next.2.stream
    ⟨delivery :: stream.ahead, stream.last⟩
termination_by scanner.work
decreasing_by exact Scanner.work_next_lt ‹_›

namespace Token.Stream

/-- The stream of a text. -/
def ofText (source : String) (file : Option String) : Stream :=
  (Scanner.ofText source file).stream

/-- The next delivery, and the stream after it. -/
def next (stream : Stream) : Delivery × Stream :=
  match stream.ahead with
  | delivery :: ahead => (delivery, { stream with ahead })
  | [] => (stream.last, stream)

/-- The deliveries up to the first fault, or to the end of the text. -/
def untilFault (stream : Stream) : List Delivery :=
  go (stream.ahead ++ [stream.last])
where
  /-- The list up to and including its first fault. -/
  go : List Delivery → List Delivery
    | [] => []
    | delivery :: rest =>
      match delivery.result with
      | .ok _ => delivery :: go rest
      | .error _ => [delivery]

/-- The tokens of the stream, the end token last, or its first fault. -/
def tokens (stream : Stream) : Except Fault (List Token) :=
  (stream.ahead ++ [stream.last]).mapM Delivery.result

/-- The events up to the first fault, or to the end of the text. -/
def events (stream : Stream) : List Event :=
  stream.untilFault.flatMap Delivery.events

end Token.Stream

end Offside
