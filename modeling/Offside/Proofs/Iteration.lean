import Offside.Proofs.Calls

/-!
# Items and tokens

A walk over a text yields what `tokenize` answers for it, item by item (`items_of_tokenize`): the
tokens without the end token, or those before the first fault and then the fault; and after that
nothing, however often it is asked. The walk is stopped by a flag of its own and `tokenize` by the
end token or the fault, both at the same delivery.

The scanner below knows no such end. It delivers the end token over and over (`Scanner.Ends.next`),
and after a fault in the indentation it delivers the tokens that were due there.
-/

namespace Offside

namespace Scanner

variable {scanner after : Scanner} {tokens : List Token} {last : Token} {fault : Fault}

/-- What the scanner delivers after `n` other deliveries. -/
def resultAt (scanner : Scanner) : Nat → Except Fault Token
  | 0 => scanner.next.1.result
  | n + 1 => scanner.next.2.resultAt n

/-! ## The end of the text -/

/-- The end token leaves the scanner where it comes again. -/
theorem Ends.next (h : scanner.Ends last) (hbreaks : scanner.PendingBreaks) :
    scanner.next.2.Ends last := by
  obtain ⟨hpending, hspaces⟩ := h.spaces hbreaks
  have hrest : scanner.skipSpaces.rest = [] := hspaces
  have hnext := next_of_end hpending hrest
  have hskip : scanner.skipSpaces.skipSpaces = scanner.skipSpaces := by
    rw [skipSpaces.eq_def scanner.skipSpaces, hrest]
    exact congrArg (fun rest => { scanner.skipSpaces with rest }) hrest.symm
  have hlast : scanner.skipSpaces.endToken = last := by
    have hresult := h.result_eq
    rw [hnext] at hresult
    exact Except.ok.inj hresult
  have hends : scanner.skipSpaces.Ends scanner.skipSpaces.skipSpaces.endToken :=
    At.ends ⟨hrest, rfl, hpending⟩ rfl
  rw [hskip, hlast] at hends
  rwa [hnext]

theorem Ends.resultAt (h : scanner.Ends last) (hbreaks : scanner.PendingBreaks) (n : Nat) :
    scanner.resultAt n = .ok last := by
  induction n generalizing scanner with
  | zero => exact h.result_eq
  | succ n ih => exact ih (h.next hbreaks) (regular_next hbreaks).2

/-- Once the end token was delivered, nothing else is. -/
theorem resultAt_of_isEnd {n : Nat} (hbreaks : scanner.PendingBreaks)
    (h : scanner.resultAt n = .ok last) (hend : last.isEnd = true) (k : Nat) :
    scanner.resultAt (n + k) = .ok last := by
  induction n generalizing scanner with
  | zero =>
    rw [Nat.zero_add]
    exact Ends.resultAt ⟨h, hend⟩ hbreaks k
  | succ n ih =>
    rw [Nat.succ_add]
    exact ih (regular_next hbreaks).2 h

/-! ## Deliveries in a row -/

theorem Delivers.resultAt_add (h : Delivers scanner tokens after) (n : Nat) :
    scanner.resultAt (tokens.length + n) = after.resultAt n := by
  induction h with
  | refl => rw [List.length_nil, Nat.zero_add]
  | step _ _ _ ih => rw [List.length_cons, Nat.succ_add, resultAt, ih]

/-- Tokens in a row, and then the end token for ever. -/
theorem Delivers.resultAt (h : Delivers scanner tokens after) (hends : after.Ends last)
    (hbreaks : scanner.PendingBreaks) (n : Nat) :
    scanner.resultAt n = .ok (tokens.getD n last) := by
  induction h generalizing n with
  | refl => exact hends.resultAt hbreaks n
  | step hresult _ _ ih =>
    cases n with
    | zero => exact hresult
    | succ n => exact ih hends (regular_next hbreaks).2 n

theorem Delivers.isEnd_eq_false (h : Delivers scanner tokens after) :
    ∀ token ∈ tokens, token.isEnd = false := by
  induction h with
  | refl => simp
  | step _ hend _ ih => exact List.forall_mem_cons.2 ⟨hend, ih⟩

/-- After a fault in the indentation the newline token of that line break is still delivered. -/
theorem exists_newline_of_trip {width : Nat} (h : scanner.Trip fault after)
    (hcause : fault.cause = .inconsistentIndentation width) :
    ∃ token, token.kind = .newline ∧ after.next.1.result = .ok token := by
  cases h with
  | indentation => exact ⟨_, rfl, rfl⟩
  | unrecognised => cases hcause

namespace Walk

variable {walk : Walk}

/-- What the walk answers for the next item after it was asked for `n` others. -/
def itemAt (walk : Walk) : Nat → Option (Except Fault Token)
  | 0 => walk.next?.1
  | n + 1 => walk.next?.2.itemAt n

/-- A walk that is over yields nothing. -/
theorem itemAt_of_finished (h : walk.finished = true) (n : Nat) : walk.itemAt n = none := by
  have hnext : walk.next? = (none, walk) := by rw [next?, if_pos h]
  induction n with
  | zero => rw [itemAt, hnext]
  | succ n ih => rw [itemAt, hnext, ih]

/-- The end token ends the walk. -/
theorem itemAt_of_ends (h : scanner.Ends last) (n : Nat) : itemAt { scanner } n = none := by
  have hnext : next? { scanner } = (none, { scanner := scanner.next.2, finished := true }) := by
    simp [next?, h.result_eq, h.isEnd]
  cases n with
  | zero => rw [itemAt, hnext]
  | succ n => rw [itemAt, hnext, itemAt_of_finished rfl]

/-- A fault ends the walk, and is its last item. -/
theorem itemAt_of_error (h : scanner.next.1.result = .error fault) (n : Nat) :
    itemAt { scanner } n = [Except.error fault][n]? := by
  have hnext : next? { scanner } =
      (some (.error fault), { scanner := scanner.next.2, finished := true }) := by
    simp [next?, h]
  cases n with
  | zero =>
    rw [itemAt, hnext]
    rfl
  | succ n =>
    rw [itemAt, hnext, itemAt_of_finished rfl]
    rfl

/-- The tokens that a scanner delivers are the first items of the walk. -/
theorem itemAt_of_delivers {rest : List (Except Fault Token)} (h : Delivers scanner tokens after)
    (hrest : ∀ n, itemAt { scanner := after } n = rest[n]?) (n : Nat) :
    itemAt { scanner } n = (tokens.map Except.ok ++ rest)[n]? := by
  induction h generalizing n with
  | refl => exact hrest n
  | @step scanner after token tokens hresult hend _ ih =>
    have hnext : next? { scanner } = (some (.ok token), { scanner := scanner.next.2 }) := by
      simp [next?, hresult, hend]
    cases n with
    | zero =>
      rw [itemAt, hnext]
      rfl
    | succ n =>
      rw [itemAt, hnext]
      exact ih hrest n

/-- The items of a walk are the tokens of the text without the end token, or those before the first
fault and the fault; then there are no more. Meanwhile the scanner delivers the end token for ever
once it has come to it, and goes on behind a fault in the indentation. -/
theorem items_of_tokenize (source : String) (file : Option String) :
    (match (tokenize source file).result with
      | .ok tokens => ∃ (words : List Token) (last : Token),
          tokens = words ++ [last] ∧ last.isEnd = true ∧
          (∀ token ∈ words, token.isEnd = false) ∧
          (∀ n, (ofText source file).itemAt n = (words.map Except.ok)[n]?) ∧
          ∀ n, (Scanner.ofText source file).resultAt n = .ok (words.getD n last)
      | .error fault => ∃ words : List Token, (∀ token ∈ words, token.isEnd = false) ∧
          (∀ n, (ofText source file).itemAt n =
            (words.map Except.ok ++ [Except.error fault])[n]?) ∧
          ∀ width, fault.cause = .inconsistentIndentation width → ∃ token, token.kind = .newline ∧
            (Scanner.ofText source file).resultAt (words.length + 1) = .ok token) ∧
    ∀ n last, (Scanner.ofText source file).resultAt n = .ok last → last.isEnd = true →
      ∀ k, (Scanner.ofText source file).resultAt (n + k) = .ok last := by
  have hbreaks := pendingBreaks_ofText source file
  refine ⟨?_, fun n last => resultAt_of_isEnd hbreaks⟩
  cases hresult : (tokenize source file).result with
  | ok tokens =>
    obtain ⟨words, last, rfl⟩ := exists_append_of_tokenize hresult
    obtain ⟨after, hdelivers, hends⟩ := tokenize_eq_ok_iff.1 hresult
    have hnone (n : Nat) : itemAt { scanner := after } n = ([] : List (Except Fault Token))[n]? :=
      itemAt_of_ends hends n
    refine ⟨words, last, rfl, hends.isEnd, hdelivers.isEnd_eq_false, fun n => ?_,
      hdelivers.resultAt hends hbreaks⟩
    have hitems := itemAt_of_delivers hdelivers hnone n
    rwa [List.append_nil] at hitems
  | error fault =>
    obtain ⟨after, hdelivers, hfault⟩ := exists_delivers_of_error hresult
    refine ⟨_, hdelivers.isEnd_eq_false, itemAt_of_delivers hdelivers (itemAt_of_error hfault),
      fun width hcause => ?_⟩
    rw [hdelivers.resultAt_add]
    exact exists_newline_of_trip (trip_next hfault) hcause

end Walk

end Scanner

end Offside
