import MiniLisp.Disk.Basic

set_option autoImplicit false

/-! # History

The lines entered in a session, kept in memory and in a file, one line each. The file may be
shared with other sessions: saving adds to its end the entries that this session has not saved
yet, and never writes the others again. A file of more lines than the limit is cut to its last
ones; the entries in memory are not.

The file may also have been written by hand, or by a program that keeps the time of each entry.
Every ended line that is not empty is an entry, up to a NUL and without a carriage return at its
end; a last line that is not ended is none. In a file that starts with `#` and a digit, the lines
that do are times. For cutting, a line feed ends a line unless it is the first character, or is
followed by a NUL and a digit.
-/

namespace MiniLisp

open Disk (Content)

/-- The history of a session: the name of its file, its entries, the number of those that the
file has, and the number of lines that the file may have. -/
structure History where
  name : Text
  entries : List Content
  saved : Nat
  limit : Option Nat

namespace History

/-- The name of the history file where none is given. -/
def defaultName : Text := "./.sexpr_history"

/-- The number of lines that a history file may have. -/
def fileLimit : Nat := 1000

/-- An empty history that is kept in a file of the given name; the empty name stands for the
default one. -/
def ofName (name : Text) : History :=
  ⟨if name = [] then defaultName else name, [], 0, none⟩

/-! ## The lines of a file -/

/-- The end of a line. -/
def lineFeed : Disk.Piece := .char '\n'

/-- The lines, each ended. -/
def unlines (ls : List Content) : Content :=
  ls.flatMap (· ++ [lineFeed])

/-- Whether a content starts with the given mark and a digit. -/
def startsMarked (mark : Char) : Content → Bool
  | .char c :: .char d :: _ => c = mark && d.isDigit
  | _ => false

/-- The entry that an ended line is. -/
def entryOfLine (line : Content) : Content :=
  let line := if line.getLast? = some (.char '\r') then line.dropLast else line
  line.takeWhile (· ≠ .char '\x00')

/-- The entries in a file. -/
def entriesOf (content : Content) : List Content :=
  let ended := (Text.splitOn lineFeed content).dropLast
  let entries := (ended.map entryOfLine).filter (· ≠ [])
  if startsMarked '#' content then entries.filter (!startsMarked '#' ·) else entries

/-- Puts a piece before the first line. -/
def startLine (p : Disk.Piece) : List Content → List Content
  | [] => [[p]]
  | l :: ls => (p :: l) :: ls

/-- The lines behind the first character of a file, with their ends. -/
def linesFrom : Content → List Content
  | [] => []
  | p :: r =>
      if p = lineFeed ∧ startsMarked '\x00' r = false then [p] :: linesFrom r
      else startLine p (linesFrom r)

/-- The lines of a file as they are counted for cutting, with their ends. -/
def countedLines : Content → List Content
  | [] => []
  | p :: r => startLine p (linesFrom r)

/-- The number of ended lines beyond the limit. -/
def surplus (limit : Nat) (ls : List Content) : Nat :=
  (ls.filter fun l => l.getLast? = some lineFeed).length - limit

/-- Cuts a file to its last ended lines, and what is behind them. -/
def cut (limit : Nat) (content : Content) : Content :=
  ((countedLines content).drop (surplus limit (countedLines content))).flatten

/-! ## Reading and saving -/

/-- Reads the file, if it is there, behind the entries in memory. -/
def restore (h : History) (d : Disk) : Except Disk.Problem History :=
  match d.find h.name with
  | .ok (_, .file content) =>
      let entries := h.entries ++ entriesOf content
      .ok { h with entries, saved := entries.length, limit := some fileLimit }
  | .ok _ => .error .notRegular
  | .error _ => .ok { h with saved := h.entries.length, limit := some fileLimit }

/-- Adds an entry in memory. -/
def add (h : History) (line : Text) : History :=
  { h with entries := h.entries ++ [.ofText line] }

/-- Adds the entries that are not saved yet to the file, or makes a file of all entries, and cuts
the file to the limit. -/
def store (h : History) (d : Disk) : Except Disk.Problem (History × Disk) := do
  let d ←
    if d.has h.name then d.append h.name (unlines (h.entries.drop h.saved))
    else d.create h.name (unlines h.entries)
  let d := match h.limit with
    | some n => d.modify h.name (cut n)
    | none => d
  return ({ h with saved := h.entries.length }, d)

end History

end MiniLisp
