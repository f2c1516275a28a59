import MiniLisp.Text.Basic
import MiniLisp.Text.Printable

set_option autoImplicit false

/-! # Quoted texts

The form of a text in a debugging text. It stands between single quotes, or between double quotes
if it holds a single quote and no double quote. Inside, a backslash stands before the quote that
was chosen and before a backslash; line feed, carriage return and tab are `\n`, `\r` and `\t`; any
other character that cannot be seen is given by its code point, in the shortest of the forms
`\xhh`, `\uhhhh` and `\Uhhhhhhhh`. So the form shows where a text ends and what it holds.
-/

namespace MiniLisp.Text

/-- A number in hexadecimal, filled up with zeros to the given width. -/
def hexadecimal (width n : Nat) : Text :=
  let ds := Nat.toDigits 16 n
  List.replicate (width - ds.length) '0' ++ ds

/-- A character given by its code point. -/
def codePoint (c : Char) : Text :=
  let n := c.toNat
  if n < 0x100 then '\\' :: 'x' :: hexadecimal 2 n
  else if n < 0x10000 then '\\' :: 'u' :: hexadecimal 4 n
  else '\\' :: 'U' :: hexadecimal 8 n

/-- A character inside the given quotes. -/
def escaped (quote c : Char) : Text :=
  if c = quote ∨ c = '\\' then ['\\', c]
  else if c = '\n' then ['\\', 'n']
  else if c = '\r' then ['\\', 'r']
  else if c = '\t' then ['\\', 't']
  else if isPrintable c then [c]
  else codePoint c

/-- The quotes to put around a text. -/
def quoteFor (t : Text) : Char :=
  if '\'' ∈ t ∧ '"' ∉ t then '"' else '\''

/-- The quoted form of a text. -/
def quoted (t : Text) : Text :=
  quoteFor t :: (t.flatMap (escaped (quoteFor t)) ++ [quoteFor t])

end MiniLisp.Text
