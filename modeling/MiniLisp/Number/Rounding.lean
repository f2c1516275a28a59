import MiniLisp.Number.Binary64

set_option autoImplicit false

/-! # Rounding to nearest

Every inexact step of the library is one function, `Binary64.nearest`, which rounds a fraction to
the nearest double, a tie to the even significand. It first chooses the exponent that leaves 53
bits before the point (or the least exponent, for numbers too small for that), then rounds to a
whole number of units of that exponent; a carry out of the 53 bits moves the exponent up by one.
What does not fit the largest exponent is infinite.

Reading a decimal (`ofDecimal`) and adding (`add`) form their exact result first and round it
once.
-/

namespace MiniLisp.Binary64

/-- The number of the given significand of at most `2 ^ 53`, infinite if its exponent is too
large. -/
def ofSignificand (negative : Bool) (significand : Nat) (exponent : Int) : Binary64 :=
  let (m, e) :=
    if significand = 0x20000000000000 then (0x10000000000000, exponent + 1)
    else (significand, exponent)
  if h : Canonical m e then .finite negative m e h else .infinite negative

/-- The double nearest to a fraction with a sign, ties to the even significand; zero keeps the
sign. -/
def nearest (negative : Bool) (q : Fraction) : Binary64 :=
  if q.num = 0 then zero negative else
    let e := if q.floorLog2 < -1022 then -1074 else q.floorLog2 - 52
    ofSignificand negative (q.scale 2 (-e)).round e

/-- The double nearest to `± digits * 10 ^ exponent`. Since ten is above `2 ^ 3`, a number far
outside the range of doubles is told by its exponents alone, and the power of ten is not formed:
from `2 ^ 1024` on a number is infinite, and below `2 ^ (-1076)` it is zero. -/
def ofDecimal (negative : Bool) (digits : Nat) (exponent : Int) : Binary64 :=
  if digits = 0 then zero negative
  else if 0 ≤ exponent ∧ 1024 ≤ digits.log2 + 3 * exponent then .infinite negative
  else if exponent < 0 ∧ digits.log2 + 3 * exponent ≤ -1077 then zero negative
  else nearest negative ((⟨digits, 1⟩ : Fraction).scale 10 exponent)

/-- A significand with its sign. -/
def signed (negative : Bool) (significand : Nat) : Int :=
  if negative then -significand else significand

/-- Addition: the exact sum, rounded. A sum that is exactly zero is `+0` unless both numbers are
`-0`; infinities of different sign have no sum. -/
def add : Binary64 → Binary64 → Binary64
  | .nan, _ | _, .nan => .nan
  | .infinite s, .infinite t => if s = t then .infinite s else .nan
  | .infinite s, .finite .. | .finite .., .infinite s => .infinite s
  | .finite s m e _, .finite t n f _ =>
      let g := if e ≤ f then e else f
      let sum := signed s (m * Nat.pow 2 (e - g).toNat) + signed t (n * Nat.pow 2 (f - g).toNat)
      if sum = 0 then zero (s && t) else nearest (sum < 0) (size sum.natAbs g)

instance : Add Binary64 := ⟨add⟩

end MiniLisp.Binary64
