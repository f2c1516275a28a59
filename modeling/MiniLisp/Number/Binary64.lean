import MiniLisp.Number.Fraction

set_option autoImplicit false

/-! # Binary floating-point numbers

The numbers of the language are the IEEE 754 binary64 values, kept exactly and as data: a finite
one is a sign, a significand and an exponent, and stands for

    ± significand * 2 ^ exponent

in the one normal form that `Canonical` fixes, so that two numbers are equal as terms exactly when
they are the same double. All NaNs count as one. Nothing here rounds; that is
`Number/Rounding.lean`.
-/

namespace MiniLisp

/-- The normal form of a finite double: a significand below `2 ^ 53` with an exponent in range,
and at least `2 ^ 52` unless the exponent is the least one. -/
def Canonical (significand : Nat) (exponent : Int) : Prop :=
  significand < 0x20000000000000 ∧ -1074 ≤ exponent ∧ exponent ≤ 971 ∧
    (0x10000000000000 ≤ significand ∨ exponent = -1074)

instance (significand : Nat) (exponent : Int) : Decidable (Canonical significand exponent) :=
  inferInstanceAs (Decidable (_ ∧ _ ∧ _ ∧ _))

/-- An IEEE 754 binary64 value. -/
inductive Binary64 where
  | nan
  | infinite (negative : Bool)
  | finite (negative : Bool) (significand : Nat) (exponent : Int)
      (canonical : Canonical significand exponent)
  deriving DecidableEq

namespace Binary64

/-- The zero of either sign. -/
def zero (negative : Bool) : Binary64 :=
  .finite negative 0 (-1074) (by decide)

instance : Inhabited Binary64 := ⟨zero false⟩

/-- Whether the number is a zero, of either sign. -/
def isZero : Binary64 → Bool
  | .finite _ m _ _ => m == 0
  | _ => false

/-- Zero without its sign, every other number as it is. -/
def unsignedZero (x : Binary64) : Binary64 :=
  if x.isZero then zero false else x

/-- Equality of numbers as the language sees it: the zeros are equal, and NaN equals NaN. -/
def alike (x y : Binary64) : Bool :=
  x.unsignedZero = y.unsignedZero

/-- The integer that a number is equal to, if there is one. -/
def integer? : Binary64 → Option Int
  | .finite s m e _ =>
      let unit := Nat.pow 2 (-e).toNat
      let size := m * Nat.pow 2 e.toNat / unit
      if m % unit = 0 then some (if s then -size else size) else none
  | _ => none

/-- The size of a finite number. -/
def size (significand : Nat) (exponent : Int) : Fraction :=
  (⟨significand, 1⟩ : Fraction).scale 2 exponent

end Binary64

end MiniLisp
