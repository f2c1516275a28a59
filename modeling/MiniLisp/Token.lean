import MiniLisp.Text.Basic

set_option autoImplicit false

/-! # Tokens

A text is a sequence of tokens with blanks between and around them. A parenthesis is a token of
its own. A token that starts with a double quote runs through the next double quote that no
backslash stands directly before; blanks and parentheses inside belong to it. Any other token is
a run of characters that are neither blanks nor parentheses. A token that the text breaks off is
a token as it is, so every text has tokens.

The text is read once, from left to right, and `Scan` is what has to be remembered of the
characters read so far.
-/

namespace MiniLisp

/-- A token: its characters. -/
abbrev Token := Text

/-- Whether a character is a parenthesis. -/
def isParen (c : Char) : Bool := c = '(' || c = ')'

/-- What the characters read so far leave unfinished: nothing, or a token with these characters,
the latest one first. -/
inductive Scan where
  | gap
  | word (read : Text)
  | quoted (read : Text)
  deriving DecidableEq

namespace Scan

/-- Reads a character that stands outside every token: the tokens that it completes, and what it
leaves unfinished. -/
def enter (c : Char) : List Token × Scan :=
  if isParen c then ([[c]], .gap)
  else if Text.isBlank c then ([], .gap)
  else if c = '"' then ([], .quoted [c])
  else ([], .word [c])

/-- Reads a character. -/
def step : Scan → Char → List Token × Scan
  | .gap, c => enter c
  | .word r, c =>
      if isParen c || Text.isBlank c then
        let (ts, s) := enter c
        (r.reverse :: ts, s)
      else ([], .word (c :: r))
  | .quoted r, c =>
      if c = '"' ∧ r.head? ≠ some '\\' then ([(c :: r).reverse], .gap)
      else ([], .quoted (c :: r))

/-- Reads a text: the tokens that it completes, and what it leaves unfinished. -/
def run : Scan → Text → List Token × Scan
  | s, [] => ([], s)
  | s, c :: t =>
      let (ts, s₁) := step s c
      let (us, s₂) := run s₁ t
      (ts ++ us, s₂)

theorem run_append (s : Scan) (t u : Text) :
    run s (t ++ u) =
      ((run s t).1 ++ (run (run s t).2 u).1, (run (run s t).2 u).2) := by
  induction t generalizing s with
  | nil => simp [run]
  | cons c t ih => simp [run, ih]

/-- The unfinished token, taken as it is. -/
def finish : Scan → List Token
  | .gap => []
  | .word r => [r.reverse]
  | .quoted r => [r.reverse]

end Scan

/-- The tokens of a text. -/
def tokenize (t : Text) : List Token :=
  let (ts, s) := Scan.run .gap t
  ts ++ s.finish

/-- Whether a text ends inside a token that starts with a double quote. -/
def endsQuoted (t : Text) : Bool :=
  match (Scan.run .gap t).2 with
  | .quoted _ => true
  | _ => false

end MiniLisp
