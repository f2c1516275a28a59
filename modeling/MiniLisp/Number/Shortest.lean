import MiniLisp.Number.Rounding

set_option autoImplicit false

/-! # Shortest decimals

The decimal a number is written as: the one with the fewest digits among those that read back as
the number, and of these the nearest to it.

The decimals that are multiples of `10 ^ g` form a grid. If any point of a grid reads back as a
number, then one of the two grid points around the number does, because the numbers that read
back alike form an interval. So it is enough to try these two, on one grid after another, from a
grid coarser than the number down to the grid that the number itself is on.
-/

namespace MiniLisp

/-- The decimal `digits * 10 ^ exponent`. -/
structure Decimal where
  digits : Nat
  exponent : Int
  deriving DecidableEq

namespace Decimal

/-- Of the two multiples of `10 ^ g` around `q`, the one that reads back as `x`. If both do it is
the nearer one, of two equally near the even one. The multiple is given by its factor. -/
def onGrid (x : Binary64) (q : Fraction) (g : Int) : Option Nat :=
  let r := q.scale 10 (-g)
  if Binary64.ofDecimal false r.floor g = x then
    if Binary64.ofDecimal false (r.floor + 1) g = x then some r.round else some r.floor
  else if Binary64.ofDecimal false (r.floor + 1) g = x then some (r.floor + 1)
  else none

/-- The first decimal that reads back as `x = q`, on the given number of grids from `10 ^ g`
down; past them the exact value, if it is on the last grid. -/
def search (x : Binary64) (q : Fraction) : Nat → Int → Decimal
  | 0, g => ⟨(q.scale 10 (-g)).floor, g⟩
  | k + 1, g =>
      match onGrid x q g with
      | some c => ⟨c, g⟩
      | none => search x q k (g - 1)

/-- The shortest decimal that reads back as `significand * 2 ^ exponent`. That number is on the
grid of `10 ^ exponent` if the exponent is negative, and whole if not. -/
def shortest (significand : Nat) (exponent : Int) (h : Canonical significand exponent) : Decimal :=
  if significand = 0 then ⟨0, 0⟩ else
    let q := Binary64.size significand exponent
    let last := if exponent < 0 then exponent else 0
    search (.finite false significand exponent h) q (q.magnitude - last).toNat q.magnitude

end Decimal

end MiniLisp
