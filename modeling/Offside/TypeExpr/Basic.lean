/-!
# Type expressions

A type as it is written in a declaration, before any name in it is looked up. `TypeExpr.text` is its
canonical spelling. Types are compared by their structure (`TypeExpr.same`), which settles whether
they are equal.
-/

namespace Offside

inductive TypeExpr where
  /-- A path of names: `A::B`. -/
  | named (path : List String)
  /-- Types in parentheses, each with or without a name: `(a: A, B)`. -/
  | tuple (entries : List (Option String × TypeExpr))
  /-- An array: `[]T`. -/
  | array (element : TypeExpr)
  /-- A function: `fn (A, B) -> R`. -/
  | function (params : List TypeExpr) (result : Option TypeExpr)
deriving Inhabited, Repr

namespace TypeExpr

/-! ## Spelling -/

mutual

/-- The canonical spelling. The parentheses of a function without parameters are left out if it
has no result either. -/
def text : TypeExpr → String
  | named path => "::".intercalate path
  | tuple entries => "(" ++ ", ".intercalate (entryTexts entries) ++ ")"
  | array element => "[]" ++ element.text
  | function [] none => "fn"
  | function params none => "fn (" ++ ", ".intercalate (texts params) ++ ")"
  | function params (some result) =>
    "fn (" ++ ", ".intercalate (texts params) ++ ") -> " ++ result.text
termination_by structural type => type

/-- The spellings of the types in a list. -/
def texts : List TypeExpr → List String
  | [] => []
  | type :: rest => type.text :: texts rest
termination_by structural types => types

/-- The spellings of the entries of a tuple, each after its name. -/
def entryTexts : List (Option String × TypeExpr) → List String
  | [] => []
  | (some name, type) :: rest => (name ++ ": " ++ type.text) :: entryTexts rest
  | (none, type) :: rest => type.text :: entryTexts rest
termination_by structural entries => entries

end

instance : ToString TypeExpr where
  toString := text

/-! ## Equality -/

mutual

/-- Whether two types have the same structure. -/
def same : TypeExpr → TypeExpr → Bool
  | named path, named path' => path == path'
  | tuple entries, tuple entries' => sameEntries entries entries'
  | array element, array element' => element.same element'
  | function params result, function params' result' =>
    sameAll params params' && sameResult result result'
  | _, _ => false
termination_by structural a => a

def sameAll : List TypeExpr → List TypeExpr → Bool
  | [], [] => true
  | type :: rest, type' :: rest' => type.same type' && sameAll rest rest'
  | _, _ => false
termination_by structural a => a

def sameResult : Option TypeExpr → Option TypeExpr → Bool
  | none, none => true
  | some type, some type' => type.same type'
  | _, _ => false
termination_by structural a => a

def sameEntries : List (Option String × TypeExpr) → List (Option String × TypeExpr) → Bool
  | [], [] => true
  | (name, type) :: rest, (name', type') :: rest' =>
    name == name' && type.same type' && sameEntries rest rest'
  | _, _ => false
termination_by structural a => a

end

mutual

theorem eq_of_same : ∀ {a b : TypeExpr}, a.same b = true → a = b
  | named _, named _, h => by simp_all [same]
  | tuple _, tuple _, h => by
    simp only [same] at h
    rw [eq_of_sameEntries h]
  | array _, array _, h => by
    simp only [same] at h
    rw [eq_of_same h]
  | function _ _, function _ _, h => by
    simp only [same, Bool.and_eq_true] at h
    rw [eq_of_sameAll h.1, eq_of_sameResult h.2]
  | named _, tuple _, h | named _, array _, h | named _, function _ _, h
  | tuple _, named _, h | tuple _, array _, h | tuple _, function _ _, h
  | array _, named _, h | array _, tuple _, h | array _, function _ _, h
  | function _ _, named _, h | function _ _, tuple _, h | function _ _, array _, h => by
    simp [same] at h

theorem eq_of_sameAll : ∀ {a b : List TypeExpr}, sameAll a b = true → a = b
  | [], [], _ => rfl
  | _ :: _, _ :: _, h => by
    simp only [sameAll, Bool.and_eq_true] at h
    rw [eq_of_same h.1, eq_of_sameAll h.2]
  | [], _ :: _, h | _ :: _, [], h => by simp [sameAll] at h

theorem eq_of_sameResult : ∀ {a b : Option TypeExpr}, sameResult a b = true → a = b
  | none, none, _ => rfl
  | some _, some _, h => by
    simp only [sameResult] at h
    rw [eq_of_same h]
  | none, some _, h | some _, none, h => by simp [sameResult] at h

theorem eq_of_sameEntries :
    ∀ {a b : List (Option String × TypeExpr)}, sameEntries a b = true → a = b
  | [], [], _ => rfl
  | (_, _) :: _, (_, _) :: _, h => by
    simp only [sameEntries, Bool.and_eq_true, beq_iff_eq] at h
    rw [h.1.1, eq_of_same h.1.2, eq_of_sameEntries h.2]
  | [], _ :: _, h | _ :: _, [], h => by simp [sameEntries] at h

end

mutual

theorem same_self : ∀ a : TypeExpr, a.same a = true
  | named _ => by simp [same]
  | tuple entries => by simp [same, sameEntries_self entries]
  | array element => by simp [same, same_self element]
  | function params result => by simp [same, sameAll_self params, sameResult_self result]

theorem sameAll_self : ∀ a : List TypeExpr, sameAll a a = true
  | [] => rfl
  | type :: rest => by simp [sameAll, same_self type, sameAll_self rest]

theorem sameResult_self : ∀ a : Option TypeExpr, sameResult a a = true
  | none => rfl
  | some type => by simp [sameResult, same_self type]

theorem sameEntries_self : ∀ a : List (Option String × TypeExpr), sameEntries a a = true
  | [] => rfl
  | (_, type) :: rest => by simp [sameEntries, same_self type, sameEntries_self rest]

end

theorem same_iff {a b : TypeExpr} : a.same b = true ↔ a = b :=
  ⟨eq_of_same, fun h => h ▸ same_self a⟩

instance : DecidableEq TypeExpr :=
  fun _ _ => decidable_of_iff _ same_iff

end TypeExpr

end Offside
