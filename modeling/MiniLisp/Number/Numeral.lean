import MiniLisp.Number.Rounding
import MiniLisp.Text.Basic

set_option autoImplicit false

/-! # Numerals

Which texts are numbers, and of what value. A numeral may stand between ASCII blanks. It is an
optional sign followed by

* `inf`, `infinity` or `nan`, in any letter case, or
* digits with an optional point among, before or after them, and an optional exponent: `e` or
  `E`, an optional sign and at least one digit.

The value is exact until it is rounded, once, to a double.
-/

namespace MiniLisp

/-- What a numeral says, before rounding. -/
inductive Numeral where
  | nan
  | infinity (negative : Bool)
  | decimal (negative : Bool) (digits : Nat) (exponent : Int)
  deriving DecidableEq

namespace Numeral

/-- The blanks that may surround a numeral. -/
def isBlank (c : Char) : Bool :=
  (0x09 ≤ c.toNat && c.toNat ≤ 0x0D) || c = ' '

/-- Takes an optional sign off; the first part says whether it is a minus. -/
def splitSign : Text → Bool × Text
  | '-' :: r => (true, r)
  | '+' :: r => (false, r)
  | r => (false, r)

/-- The digits that a text starts with, and the rest. -/
def spanDigits (t : Text) : Text × Text :=
  (t.takeWhile Char.isDigit, t.dropWhile Char.isDigit)

/-- The value of a run of digits. -/
def digitsValue (ds : Text) : Nat := Nat.ofDigitChars 10 ds 0

/-- Reads an integer: an optional sign and digits, at least one. -/
def integer? (t : Text) : Option Int :=
  let (negative, ds) := splitSign t
  if ds ≠ [] ∧ ds.all Char.isDigit then
    some (if negative then -digitsValue ds else digitsValue ds)
  else none

/-- Reads what follows the digits of a numeral: nothing, or an exponent. -/
def exponent? : Text → Option Int
  | [] => some 0
  | c :: r => if c = 'e' ∨ c = 'E' then integer? r else none

/-- Splits digits with an optional point into those before it, those after it, and the rest. -/
def splitFraction (t : Text) : Text × Text × Text :=
  let (whole, r) := spanDigits t
  match r with
  | '.' :: r => (whole, spanDigits r)
  | r => (whole, [], r)

/-- Reads digits with an optional point and exponent. -/
def decimal? (negative : Bool) (t : Text) : Option Numeral :=
  let (whole, fraction, r) := splitFraction t
  if whole = [] ∧ fraction = [] then none
  else (exponent? r).map fun e =>
    .decimal negative (digitsValue (whole ++ fraction)) (e - fraction.length)

/-- Reads a numeral. -/
def read? (t : Text) : Option Numeral :=
  let (negative, r) := splitSign (Text.stripBy isBlank t)
  let word := r.map Char.toLower
  if word = "inf" ∨ word = "infinity" then some (.infinity negative)
  else if word = "nan" then some .nan
  else decimal? negative r

/-- The number that a numeral stands for. -/
def value : Numeral → Binary64
  | .nan => .nan
  | .infinity s => .infinite s
  | .decimal s digits exponent => .ofDecimal s digits exponent

end Numeral

/-- The number written in a text, if the text is a numeral. -/
def Binary64.read? (t : Text) : Option Binary64 :=
  (Numeral.read? t).map Numeral.value

end MiniLisp
