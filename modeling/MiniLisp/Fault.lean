import MiniLisp.Builtin
import MiniLisp.Expr.Basic
import MiniLisp.Text.Quoted

set_option autoImplicit false

/-! # Faults

Why reading or evaluating an expression fails. A failure of the language has a cause and collects
notes on its way out, one for every built-in form and every file it passes through, the innermost
first. Meeting a value that is no expression is a mistake of the embedding program, not of the
language; it collects no notes.
-/

namespace MiniLisp

/-- Why the language refuses to go on. What was refused is kept as it is displayed. -/
inductive Cause where
  /-- More lists are nested, or more calls in progress, than the limit. -/
  | tooDeep (limit : Int)
  /-- A name without a value is used. -/
  | unbound (name : Text)
  /-- A name without a value is assigned to. -/
  | unassignable (name : Text)
  /-- The root frame would be popped. -/
  | rootPop
  /-- The head of a list is no symbol. -/
  | badHead (shown : Text)
  /-- The head of a list is bound to a list. -/
  | notCallable (name : Text)
  /-- The head of a list names nothing that can be called. -/
  | unknownName (name : Text)
  /-- A summand is no number. -/
  | notNumber (shown : Text)
  /-- A form has the wrong number of arguments. -/
  | wrongCount (form : Builtin) (expected got : Nat)
  /-- The first argument of a definition is no symbol. -/
  | notDefinable (shown : Text)
  /-- The first argument of an assignment is no symbol. -/
  | badTarget (shown : Text)
  /-- The first argument of a `let` is missing or no list. -/
  | noBindings (shown : Option Text)
  /-- A binding of a `let` is no pair of a symbol and an expression. -/
  | badBinding (shown : Text)
  deriving DecidableEq

/-- What a failure passed through on its way out. -/
inductive Note where
  | inForm (form : Builtin)
  | whileLoading (path : Text)
  deriving DecidableEq

/-- A failure of the language: its cause, and its notes in the order they were made. -/
structure Failure where
  cause : Cause
  notes : List Note
  deriving DecidableEq

/-- Why an evaluation gives no value. -/
inductive Fault where
  | failure (f : Failure)
  | notExpression (kind : Foreign.Kind)
  deriving DecidableEq

namespace Cause

/-- The message of a failure. -/
def message : Cause → Text
  | .tooDeep limit => "expression too deeply nested (limit " ++ Text.ofInt limit ++ ")"
  | .unbound name => "failed to get value with name '" ++ name ++ "'"
  | .unassignable name => "failed to set value with name '" ++ name ++ "'"
  | .rootPop => "cannot pop the root scope"
  | .badHead shown => "failed to evaluate list with head '" ++ shown ++ "'"
  | .notCallable name =>
      "cannot call '" ++ name ++ "': user-defined procedures are not implemented"
  | .unknownName name => "failed to evaluate '" ++ name ++ "', unknown builtin or function name"
  | .notNumber shown => "attempted to add non-number '" ++ shown ++ "'"
  | .wrongCount form expected got =>
      form.name ++ " expects " ++ Text.ofNat expected ++ " arguments, got " ++ Text.ofNat got
  | .notDefinable shown => "def must bind a symbol, got '" ++ shown ++ "'"
  | .badTarget shown => "set must target a symbol, got '" ++ shown ++ "'"
  | .noBindings shown => "let expects a list of bindings, got '" ++ shown.getD "nothing" ++ "'"
  | .badBinding shown => "let binding must be a (symbol value) pair, got '" ++ shown ++ "'"

end Cause

/-- The text of a note. -/
def Note.text : Note → Text
  | .inForm form => "in (" ++ form.name ++ " ...)"
  | .whileLoading path => "while loading " ++ path

namespace Failure

/-- A failure where it arises. -/
def ofCause (c : Cause) : Failure := ⟨c, []⟩

/-- The failure with one more note. -/
def addNote (n : Note) (f : Failure) : Failure := { f with notes := f.notes ++ [n] }

end Failure

namespace Fault

/-- A failure of the language where it arises. -/
def ofCause (c : Cause) : Fault := .failure (.ofCause c)

/-- The fault with one more note, if it is a failure of the language. -/
def addNote (n : Note) : Fault → Fault
  | .failure f => .failure (f.addNote n)
  | .notExpression k => .notExpression k

end Fault

/-- The debugging text of a failure with the given message. -/
def Failure.debugText (message : Text) : Text := "LispError(" ++ Text.quoted message ++ ")"

/-- The message that refuses a value that is no expression. -/
def Foreign.Kind.message (k : Foreign.Kind) : Text := "Not an expression: " ++ k.name

/-- The message that refuses to change an expression in place. -/
def Expr.immutableMessage (e : Expr) : Text := e.kindName ++ " is immutable"

end MiniLisp
