/-!
# Outlines

An outline is a value laid open for a reader: records with named fields, lists, and items under a
name. `Outline.compact` writes it on one line. `Outline.spread` gives every item a line of its own,
four columns deeper than what holds it and with a comma after it.
-/

namespace Offside

inductive Outline where
  /-- A value that is written as it stands. -/
  | atom (text : String)
  /-- Fields under the name of a record: `Point { x: 1, y: 2 }` on one line. -/
  | record (name : String) (fields : List (String × Outline))
  /-- Items in parentheses, after a name that may be empty: `Some(1)`. -/
  | tuple (name : String) (items : List Outline)
  /-- Items in brackets: `[1, 2]`. -/
  | list (items : List Outline)
deriving Inhabited, Repr

namespace Outline

mutual

/-- The outline on one line. -/
def compact : Outline → String
  | atom text => text
  | record name fields => name ++ " \x7b " ++ ", ".intercalate (compactFields fields) ++ " \x7d"
  | tuple name items => name ++ "(" ++ ", ".intercalate (compactAll items) ++ ")"
  | list items => "[" ++ ", ".intercalate (compactAll items) ++ "]"
termination_by structural outline => outline

def compactAll : List Outline → List String
  | [] => []
  | item :: rest => item.compact :: compactAll rest
termination_by structural items => items

def compactFields : List (String × Outline) → List String
  | [] => []
  | (name, item) :: rest => (name ++ ": " ++ item.compact) :: compactFields rest
termination_by structural fields => fields

end

/-- The margin of a line at the given depth. -/
def margin (depth : Nat) : String :=
  "".pushn ' ' (4 * depth)

/-- Lines between an opening and a closing mark. Nothing stands between the marks of an empty
list. -/
def enclose (depth : Nat) (opening closing : String) (lines : List String) : String :=
  if lines.isEmpty then opening ++ closing
  else
    opening ++ "\n" ++ String.join (lines.map fun line => margin (depth + 1) ++ line ++ ",\n")
      ++ margin depth ++ closing

mutual

/-- The outline over several lines, from a line at the given depth on. -/
def spread (depth : Nat) : Outline → String
  | atom text => text
  | record name fields => enclose depth (name ++ " \x7b") "\x7d" (spreadFields (depth + 1) fields)
  | tuple name items => enclose depth (name ++ "(") ")" (spreadAll (depth + 1) items)
  | list items => enclose depth "[" "]" (spreadAll (depth + 1) items)
termination_by structural outline => outline

def spreadAll (depth : Nat) : List Outline → List String
  | [] => []
  | item :: rest => item.spread depth :: spreadAll depth rest
termination_by structural items => items

def spreadFields (depth : Nat) : List (String × Outline) → List String
  | [] => []
  | (name, item) :: rest => (name ++ ": " ++ item.spread depth) :: spreadFields depth rest
termination_by structural fields => fields

end

/-! ## Outlines of plain values -/

def ofText (text : String) : Outline := atom text

/-- A value that may be missing. -/
def ofOption (item : α → Outline) : Option α → Outline
  | none => atom "None"
  | some a => tuple "Some" [item a]

end Outline

end Offside
