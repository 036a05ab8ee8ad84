import Offside.Expr.Basic
/-!
# Equality and fingerprints

Two expressions are equal (`==`) when they have the same structure and the same values, wherever
they come from. Numbers are compared as numbers, so the two zeros are equal and a NaN makes an
expression differ even from itself. `Expr.fingerprint` is what a hash of an expression reads, in
order; equal expressions have the same fingerprint.
-/

namespace Offside

/-- Whether two parameters are equal wherever they come from. -/
def Parameter.equals (a b : Parameter) : Bool :=
  a.name == b.name && a.type == b.type

namespace Expr

mutual

/-- Whether two expressions are equal wherever they come from. -/
def equals : Expr → Expr → Bool
  | block body, block body' => equalsBlock body body'
  | moduleDef _ name body, moduleDef _ name' body' => name == name' && equalsBlock body body'
  | useDef _ path, useDef _ path' => path == path'
  | reference _ modules name, reference _ modules' name' => modules == modules' && name == name'
  | intLit _ value, intLit _ value' => value == value'
  | floatLit _ value, floatLit _ value' => value.equals value'
  | stringLit _ value, stringLit _ value' => value == value'
  | boolLit _ value, boolLit _ value' => value == value'
  | identifier _ name, identifier _ name' => name == name'
  | binary _ left operator right, binary _ left' operator' right' =>
    left.equals left' && operator == operator' && right.equals right'
  | assign _ target value, assign _ target' value' => target.equals target' && value.equals value'
  | arguments _ args, arguments _ args' => equalsAll args args'
  | call _ target args, call _ target' args' => target.equals target' && equalsAll args args'
  | parameter param, parameter param' => param.equals param'
  | functionDef _ name params result body, functionDef _ name' params' result' body' =>
    name == name' && params.isEqv params' Parameter.equals && result == result'
      && equalsBlock body body'
  | conditional _ condition whenTrue whenFalse, conditional _ condition' whenTrue' whenFalse' =>
    condition.equals condition' && equalsBlock whenTrue whenTrue'
      && equalsBlock whenFalse whenFalse'
  | _, _ => false
termination_by structural a => a

def equalsAll : List Expr → List Expr → Bool
  | [], [] => true
  | expr :: rest, expr' :: rest' => expr.equals expr' && equalsAll rest rest'
  | _, _ => false
termination_by structural a => a

def equalsBlock : Block Expr → Block Expr → Bool
  | ⟨_, contents⟩, ⟨_, contents'⟩ => equalsAll contents contents'
termination_by structural a => a

end

instance : BEq Expr where
  beq := equals

instance : BEq (Block Expr) where
  beq := equalsBlock

end Expr

/-! ## Fingerprints -/

/-- An item that a hash reads. -/
inductive Fingerprint.Item where
  /-- Which of several alternatives follows. -/
  | choice (index : Nat)
  /-- How many elements follow. -/
  | count (length : Nat)
  | text (value : String)
  | int (value : Int64)
  | bits (value : UInt64)
  | flag (value : Bool)
deriving DecidableEq, Repr

/-- What a hash reads of a value, in order. -/
abbrev Fingerprint := List Fingerprint.Item

namespace Fingerprint

/-- A list: its length, then its elements. -/
def ofList (item : α → Fingerprint) (l : List α) : Fingerprint :=
  .count l.length :: l.flatMap item

/-- A value that may be missing. -/
def ofOption (item : α → Fingerprint) : Option α → Fingerprint
  | none => [.choice 0]
  | some a => .choice 1 :: item a

/-- A field of a node that may be missing. A flag says whether it is there, where other values have
a choice. -/
def ofField (item : α → Fingerprint) : Option α → Fingerprint
  | none => [.flag false]
  | some a => .flag true :: item a

def ofText (text : String) : Fingerprint := [.text text]

end Fingerprint

namespace TypeExpr

mutual

def fingerprint : TypeExpr → Fingerprint
  | named path => .choice 0 :: Fingerprint.ofList .ofText path
  | tuple entries => .choice 1 :: .count entries.length :: entriesFingerprint entries
  | array element => .choice 2 :: element.fingerprint
  | function params none =>
    .choice 3 :: .count params.length :: (allFingerprint params ++ [.choice 0])
  | function params (some result) =>
    .choice 3 :: .count params.length
      :: (allFingerprint params ++ .choice 1 :: result.fingerprint)
termination_by structural type => type

def allFingerprint : List TypeExpr → Fingerprint
  | [] => []
  | type :: rest => type.fingerprint ++ allFingerprint rest
termination_by structural types => types

def entriesFingerprint : List (Option String × TypeExpr) → Fingerprint
  | [] => []
  | (name, type) :: rest =>
    Fingerprint.ofOption .ofText name ++ type.fingerprint ++ entriesFingerprint rest
termination_by structural entries => entries

end

end TypeExpr

def UseSegment.fingerprint : UseSegment → Fingerprint
  | module name => [.choice 0, .text name]
  | alternatives names => .choice 1 :: Fingerprint.ofList .ofText names

def Parameter.fingerprint (parameter : Parameter) : Fingerprint :=
  .text parameter.name :: parameter.type.fingerprint

/-- The bits of a number. The two zeros are equal, so they share theirs. -/
def Binary64.fingerprint (x : Binary64) : Fingerprint :=
  [.bits (if x.magnitude = 0 then 0 else x.bits)]

namespace Expr

mutual

/-- The kind of the node, then its values and the nodes below it, as they are declared. -/
def fingerprint : Expr → Fingerprint
  | block body => .choice 0 :: blockFingerprint body
  | moduleDef _ name body => .choice 1 :: .text name :: blockFingerprint body
  | useDef _ path => .choice 2 :: Fingerprint.ofList UseSegment.fingerprint path
  | reference _ modules name => .choice 3 :: (Fingerprint.ofList .ofText modules ++ [.text name])
  | intLit _ value => [.choice 4, .int value]
  | floatLit _ value => .choice 5 :: value.fingerprint
  | stringLit _ value => [.choice 6, .text value]
  | boolLit _ value => [.choice 7, .flag value]
  | identifier _ name => [.choice 8, .text name]
  | binary _ left operator right =>
    .choice 9 :: (left.fingerprint ++ .text operator :: right.fingerprint)
  | assign _ target value => .choice 10 :: (target.fingerprint ++ value.fingerprint)
  | arguments _ args => .choice 11 :: .count args.length :: allFingerprint args
  | call _ target args =>
    .choice 12 :: (target.fingerprint ++ .count args.length :: allFingerprint args)
  | parameter param => .choice 13 :: param.fingerprint
  | functionDef _ name params result body =>
    .choice 14 :: .text name :: (Fingerprint.ofList Parameter.fingerprint params
      ++ Fingerprint.ofField TypeExpr.fingerprint result ++ blockFingerprint body)
  | conditional _ condition whenTrue whenFalse =>
    .choice 15 :: (condition.fingerprint ++ blockFingerprint whenTrue
      ++ blockFingerprint whenFalse)
termination_by structural expr => expr

def allFingerprint : List Expr → Fingerprint
  | [] => []
  | expr :: rest => expr.fingerprint ++ allFingerprint rest
termination_by structural exprs => exprs

def blockFingerprint : Block Expr → Fingerprint
  | ⟨_, contents⟩ => .count contents.length :: allFingerprint contents
termination_by structural block => block

end

end Expr

end Offside
