import MiniLisp.Text.Basic

set_option autoImplicit false

/-! # The built-in forms

The names that a list may have as its head. There are no others: a program cannot define a
procedure. How a form is evaluated is in `Evaluation.lean`.
-/

namespace MiniLisp

/-- A built-in form. -/
inductive Builtin where
  | add
  | define
  | sequence
  | letIn
  | assign
  deriving DecidableEq, Repr

namespace Builtin

/-- The name of a form in a program. -/
def name : Builtin → Text
  | .add => "+"
  | .define => "def"
  | .sequence => "eval"
  | .letIn => "let"
  | .assign => "set"

/-- Every form, in increasing order of the names. -/
def all : List Builtin := [.add, .define, .sequence, .letIn, .assign]

/-- The names of the forms, in increasing order. -/
def names : List Text := all.map name

/-- The form of a name. -/
def ofName? (n : Text) : Option Builtin := all.find? (·.name = n)

/-- A form in a debugging text. -/
def debug (b : Builtin) : Text := "<builtin " ++ b.name ++ ">"

theorem mem_all (b : Builtin) : b ∈ all := by cases b <;> decide

theorem name_of_ofName? {n : Text} {b : Builtin} (h : ofName? n = some b) : b.name = n := by
  have := List.find?_some h
  exact of_decide_eq_true this

end Builtin

end MiniLisp
