import MiniLisp.Disk.Basic
import MiniLisp.Fault

set_option autoImplicit false

/-! # Trouble

Why a program that has to do with files and a terminal does not go on. Besides the faults of
evaluation there are files that cannot be read or written, requests for a line that the terminal
does not answer with a line, and lines that the history cannot keep.
-/

namespace MiniLisp

/-- How a request for a line can end without one: the input is at its end, the user interrupts,
or the terminal fails, with a message, for a reason of its own or with a failure of the
language. -/
inductive Terminal.Problem where
  | endOfInput
  | interrupt
  | invalid (message : Text)
  | language (message : Text)
  deriving DecidableEq

/-- What comes of a request for a line. -/
abbrev Terminal.Request := Except Terminal.Problem Text

/-- Why a program does not go on. -/
inductive Trouble where
  | fault (f : Fault)
  | disk (p : Disk.Problem)
  | terminal (p : Terminal.Problem)
  /-- A line that holds a NUL character cannot be an entry of a history. -/
  | nulInEntry
  deriving DecidableEq

/-- What is said of a line that cannot be an entry. -/
def Trouble.nulInEntryMessage : Text := "embedded null character"

end MiniLisp
