import MiniLisp.Builtin
import MiniLisp.Expr.Basic
import MiniLisp.Text.Quoted

set_option autoImplicit false

/-! # Events

What happens in the course of an evaluation, in order. Three kinds of events have a line in the
debugging log: a form is dispatched, a frame is pushed, a frame is popped. The others tell what
the scopes alone do not show: which forms have given their value, which assignments and
definitions have taken place, and which of all this happened in the body of a `let`.
-/

namespace MiniLisp

/-- An event of an evaluation. -/
inductive Event where
  /-- The evaluation of a list begins and is the `depth`-th one in progress. -/
  | entered (depth : Int)
  /-- A form is called with so many arguments. -/
  | dispatched (form : Builtin) (arguments : Nat)
  /-- A form that was called has given its value. -/
  | returned (form : Builtin)
  /-- A frame of these names is pushed, and so many frames stand now. -/
  | pushed (names : List Text) (frames : Nat)
  /-- A frame is popped, and so many frames stand now. -/
  | popped (frames : Nat)
  /-- A definition has pushed its frame. -/
  | defined (name : Text)
  /-- A name has a new value in the frame that has `level` frames outside it. -/
  | assigned (name : Text) (value : Expr) (level : Nat)
  /-- The body of a `let` begins. -/
  | bodyEntered
  /-- The body of a `let` has ended, with a value or not. -/
  | bodyLeft

namespace Event

/-- The line of an event in the debugging log. -/
def logLine? : Event → Option Text
  | .dispatched form n =>
      some ("DEBUG sexpr.evaluator: Dispatching " ++ form.name ++ " with " ++ Text.ofNat n ++
        " arguments")
  | .pushed names n =>
      some ("DEBUG sexpr.value: Pushed frame [" ++ Text.joinWith ", " (names.map Text.quoted) ++
        "], " ++ Text.ofNat n ++ " frames")
  | .popped n => some ("DEBUG sexpr.value: Popped frame, " ++ Text.ofNat n ++ " frames")
  | _ => none

/-- The debugging log of a course of events. -/
def log (events : List Event) : List Text := events.filterMap logLine?

end Event

end MiniLisp
