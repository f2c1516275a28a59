import MiniLisp.Number.Shortest
import MiniLisp.Text.Basic

set_option autoImplicit false

/-! # Written numbers

Two notations for the shortest decimal of a number. A value of the language is shown in
*positional* notation: no exponent, no zeros at the end of a fraction, no point without a
fraction. In a debugging text the number keeps a fraction, and has an exponent when the first
digit stands at `10 ^ 16` or above, or below `10 ^ -4`.
-/

namespace MiniLisp

namespace Decimal

/-- The digits as they are written. -/
def digitText (x : Decimal) : Text := Nat.toDigits 10 x.digits

/-- The power of ten at which the first digit stands. -/
def leading (x : Decimal) : Int := x.exponent + (x.digitText.length - 1 : Nat)

/-- Whole part and fraction of positional notation. -/
def positionalParts (x : Decimal) : Text × Text :=
  let ds := x.digitText
  if 0 ≤ x.exponent then (ds ++ List.replicate x.exponent.toNat '0', [])
  else
    let places := (-x.exponent).toNat
    if places < ds.length then ds.splitAt (ds.length - places)
    else (['0'], List.replicate (places - ds.length) '0' ++ ds)

/-- Positional notation, with a point only before a fraction. -/
def positional (x : Decimal) : Text :=
  match x.positionalParts with
  | (whole, []) => whole
  | (whole, fraction) => whole ++ '.' :: fraction

/-- Positional notation that always has a fraction. -/
def pointed (x : Decimal) : Text :=
  match x.positionalParts with
  | (whole, []) => whole ++ (".0" : Text)
  | (whole, fraction) => whole ++ '.' :: fraction

/-- A signed exponent of at least two digits. -/
def exponentText (e : Int) : Text :=
  let ds := Text.ofNat e.natAbs
  (if e < 0 then '-' else '+') :: (if ds.length < 2 then '0' :: ds else ds)

/-- One digit, the others after a point, and the exponent of the first one. -/
def scientific (x : Decimal) : Text :=
  let significand := match x.digitText with
    | first :: second :: rest => first :: '.' :: second :: rest
    | ds => ds
  significand ++ 'e' :: exponentText x.leading

end Decimal

namespace Binary64

/-- A minus sign before the text of a negative number. -/
def withSign (negative : Bool) (t : Text) : Text :=
  if negative then '-' :: t else t

/-- The number as the language shows it. -/
def display : Binary64 → Text
  | .nan => "NaN"
  | .infinite s => withSign s "inf"
  | .finite s m e h => withSign s (Decimal.shortest m e h).positional

/-- The number in a debugging text. -/
def debug : Binary64 → Text
  | .nan => "nan"
  | .infinite s => withSign s "inf"
  | .finite s m e h =>
      let x := Decimal.shortest m e h
      withSign s (if -4 ≤ x.leading ∧ x.leading < 16 then x.pointed else x.scientific)

end Binary64

end MiniLisp
