set_option autoImplicit false

/-! # Fractions

Numbers on their way to being rounded: a numerator and a positive denominator, both natural.
Nothing is cancelled, so every step is exact and is one of whole numbers.
-/

namespace MiniLisp

/-- The number `num / den`. -/
structure Fraction where
  num : Nat
  den : Nat

namespace Fraction

/-- The fraction times `base ^ k`. -/
def scale (q : Fraction) (base : Nat) (k : Int) : Fraction :=
  ⟨q.num * Nat.pow base k.toNat, q.den * Nat.pow base (-k).toNat⟩

/-- The largest whole number that is at most the fraction. -/
def floor (q : Fraction) : Nat := q.num / q.den

/-- The nearest whole number, of two equally near the even one. -/
def round (q : Fraction) : Nat :=
  let r := q.num % q.den
  if 2 * r < q.den ∨ 2 * r = q.den ∧ q.floor % 2 = 0 then q.floor else q.floor + 1

/-- The exponent of the largest power of two that is at most the fraction. -/
def floorLog2 (q : Fraction) : Int :=
  let k : Int := q.num.log2 - q.den.log2
  let r := q.scale 2 (-k)
  if r.den ≤ r.num then k else k - 1

/-- The exponent of a power of ten that is at least the fraction, and at most ten times it: the
number of digits before the point, or minus the number of zeros behind it. -/
def magnitude (q : Fraction) : Int :=
  if q.den ≤ q.num then (Nat.toDigits 10 (q.num / q.den)).length
  else 1 - ((Nat.toDigits 10 (q.den / q.num)).length : Int)

end Fraction

end MiniLisp
