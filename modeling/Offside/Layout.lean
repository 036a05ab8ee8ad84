/-!
# Layout

The indentation of a text as a stack of widths: one for each open block, the innermost first, and
0 for the text itself at the bottom. A line moves the stack by its own width (`Layout.enter`): it
stays in the innermost block, opens a deeper one, or closes every block that is wider than the
line.
-/

namespace Offside

/-- The widths of the blocks that are open, the innermost first. -/
structure Layout where
  widths : List Nat := [0]
deriving DecidableEq, Repr

namespace Layout

/-- The width of the innermost block. -/
def width (layout : Layout) : Nat :=
  layout.widths.headD 0

/-- What a line of some width does to the open blocks. -/
inductive Shift where
  | stay
  /-- A block opens. -/
  | deeper
  /-- Blocks close. The list holds the width that each of them leaves behind. -/
  | back (widths : List Nat)
deriving DecidableEq, Repr

/-- How a line of the given width shifts the layout. -/
def shift (layout : Layout) (width : Nat) : Shift :=
  if layout.width < width then .deeper
  else if width < layout.width then
    let closed := layout.widths.takeWhile (width < ·)
    .back (layout.widths.tail.take closed.length)
  else .stay

/-- The layout after a line of the given width. -/
def enter (layout : Layout) (width : Nat) : Layout :=
  if layout.width < width then ⟨width :: layout.widths⟩
  else ⟨layout.widths.dropWhile (width < ·)⟩

theorem length_enter_add_of_shift_back {layout : Layout} {width : Nat} {widths : List Nat}
    (h : layout.shift width = .back widths) :
    (layout.enter width).widths.length + widths.length ≤ layout.widths.length := by
  have := congrArg List.length
    (List.takeWhile_append_dropWhile (p := (width < ·)) (l := layout.widths))
  simp only [shift] at h
  split at h
  · cases h
  · split at h
    · cases h
      simp_all only [enter, List.length_append, List.length_take, if_false]
      omega
    · cases h

theorem length_enter_of_shift_deeper {layout : Layout} {width : Nat}
    (h : layout.shift width = .deeper) :
    (layout.enter width).widths.length = layout.widths.length + 1 := by
  simp only [shift] at h
  split at h
  · simp_all [enter]
  · split at h <;> cases h

theorem length_enter_le_of_shift_stay {layout : Layout} {width : Nat}
    (h : layout.shift width = .stay) :
    (layout.enter width).widths.length ≤ layout.widths.length := by
  simp only [shift] at h
  split at h
  · cases h
  · simp_all only [enter, if_false]
    exact (List.dropWhile_suffix _).length_le

end Layout

end Offside
