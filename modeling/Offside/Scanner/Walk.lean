import Offside.Token.Stream
/-!
# Walks that end

A scanner never stops delivering. A `Scanner.Walk` takes its tokens up to the end of the text and
not further than the first fault; after that it yields nothing.
-/

namespace Offside

/-- A scanner, and whether the walk over its text is over. -/
structure Scanner.Walk where
  scanner : Scanner
  finished : Bool := false

namespace Scanner.Walk

/-- The next token or fault, or nothing if the walk is over. The end token ends the walk and is not
yielded. -/
def next? (walk : Walk) : Option (Except Fault Token) × Walk :=
  if walk.finished then (none, walk)
  else
    let (delivery, scanner) := walk.scanner.next
    match delivery.result with
    | .ok token =>
      if token.isEnd then (none, { scanner, finished := true })
      else (some (.ok token), { scanner })
    | .error fault => (some (.error fault), { scanner, finished := true })

/-- A bound on what the walk has yet to yield. -/
def work (walk : Walk) : Nat :=
  if walk.finished then 0 else walk.scanner.work + 1

theorem work_next?_lt {walk after : Walk} {result : Except Fault Token}
    (h : walk.next? = (some result, after)) : after.work < walk.work := by
  unfold next? at h
  split at h
  · cases h
  · rename_i hfinished
    split at h
    rename_i delivery scanner hnext
    split at h
    · rename_i token hresult
      split at h
      · cases h
      · rename_i hend
        cases h
        have hlast : ¬ walk.scanner.next.1.isLast := by
          simpa [hnext, Delivery.isLast, hresult] using hend
        have := work_next_lt hlast
        simp_all [work]
    · cases h
      simp [work, hfinished]

/-- Everything that the walk still yields, and the walk after that. -/
def drain (walk : Walk) : List (Except Fault Token) × Walk :=
  match _ : walk.next? with
  | (none, after) => ([], after)
  | (some result, after) =>
    let (results, ended) := after.drain
    (result :: results, ended)
termination_by walk.work
decreasing_by exact work_next?_lt ‹_›

end Scanner.Walk

end Offside
