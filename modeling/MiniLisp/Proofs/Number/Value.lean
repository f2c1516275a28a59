import Mathlib.Tactic
import Mathlib.Data.Int.Log
import Mathlib.Data.Rat.Floor
import Mathlib.Algebra.Order.Floor.Semifield
import MiniLisp.Number.Fraction

set_option autoImplicit false

/-! # The rational number of a fraction

A fraction is not cancelled, so many fractions stand for one number. Scaling, taking the whole
part, rounding and finding the binary order of magnitude are told of this number (`value`) alone:
they are multiplication by a power, `⌊·⌋₊`, `roundEven` and `Int.log 2`.
-/

namespace MiniLisp

/-- The whole number nearest to a rational that is not negative, of two equally near the even
one. -/
def roundEven (x : ℚ) : ℕ :=
  if Int.fract x < 1 / 2 ∨ Int.fract x = 1 / 2 ∧ ⌊x⌋₊ % 2 = 0 then ⌊x⌋₊ else ⌊x⌋₊ + 1

theorem roundEven_natCast (n : ℕ) : roundEven n = n := by
  rw [roundEven, Int.fract_natCast, Nat.floor_natCast, if_pos (Or.inl (by norm_num))]

/-- A half is rounded to zero, which is even. -/
theorem roundEven_eq_zero {x : ℚ} (h0 : 0 ≤ x) (h : x ≤ 1 / 2) : roundEven x = 0 := by
  have hfloor : ⌊x⌋₊ = 0 := Nat.floor_eq_zero.mpr (by linarith)
  have hfract : Int.fract x = x := Int.fract_eq_self.mpr ⟨h0, by linarith⟩
  rw [roundEven, hfract, hfloor]
  rcases h.lt_or_eq with hlt | heq
  · rw [if_pos (Or.inl hlt)]
  · rw [if_pos (Or.inr ⟨heq, rfl⟩)]

theorem two_zpow_log2_le {n : ℕ} (h : n ≠ 0) : (2 : ℚ) ^ (n.log2 : ℤ) ≤ n := by
  rw [zpow_natCast]
  exact_mod_cast Nat.log2_self_le h

theorem lt_two_zpow_log2 (n : ℕ) : (n : ℚ) < 2 ^ ((n.log2 : ℤ) + 1) := by
  rw [← Nat.cast_succ, zpow_natCast]
  exact_mod_cast Nat.lt_log2_self (n := n)

/-- Of a number between two neighbouring powers of two, the logarithm is the lower exponent. -/
theorem log_two_eq {x : ℚ} {k : ℤ} (hle : (2 : ℚ) ^ k ≤ x) (hlt : x < (2 : ℚ) ^ (k + 1)) :
    Int.log 2 x = k := by
  have hx : 0 < x := lt_of_lt_of_le (by positivity) hle
  have h1 : k ≤ Int.log 2 x := (Int.zpow_le_iff_le_log (by norm_num) hx).mp hle
  have h2 : Int.log 2 x < k + 1 := (Int.lt_zpow_iff_log_lt (by norm_num) hx).mp hlt
  omega

namespace Fraction

/-- The number that a fraction stands for. -/
def value (q : Fraction) : ℚ := q.num / q.den

theorem value_scale (q : Fraction) {base : ℕ} (hb : 0 < base) (k : ℤ) :
    (q.scale base k).value = q.value * (base : ℚ) ^ k := by
  have hbase : (base : ℚ) ≠ 0 := by positivity
  simp only [value, scale, Nat.pow_eq, Nat.cast_mul, Nat.cast_pow]
  rcases Int.le_total 0 k with hk | hk
  · obtain ⟨n, rfl⟩ := Int.eq_ofNat_of_zero_le hk
    simp [mul_div_right_comm]
  · obtain ⟨n, hn⟩ := Int.eq_ofNat_of_zero_le (Int.neg_nonneg_of_nonpos hk)
    obtain rfl : k = -n := by omega
    rw [zpow_neg, zpow_natCast, ← div_eq_mul_inv, div_div]
    simp

theorem den_scale_pos {q : Fraction} (h : 0 < q.den) {base : ℕ} (hb : 0 < base) (k : ℤ) :
    0 < (q.scale base k).den :=
  Nat.mul_pos h (Nat.pow_pos hb)

theorem floor_eq (q : Fraction) : q.floor = ⌊q.value⌋₊ :=
  (Nat.floor_div_eq_div q.num q.den).symm

theorem round_eq {q : Fraction} (h : 0 < q.den) : q.round = roundEven q.value := by
  have hden : (0 : ℚ) < q.den := by exact_mod_cast h
  have hfract : Int.fract q.value = (q.num % q.den : ℕ) / q.den :=
    Int.fract_div_natCast_eq_div_natCast_mod
  have hlt : Int.fract q.value < 1 / 2 ↔ 2 * (q.num % q.den) < q.den := by
    rw [hfract, div_lt_div_iff₀ hden (by norm_num), one_mul, mul_comm]
    exact_mod_cast Iff.rfl
  have heq : Int.fract q.value = 1 / 2 ↔ 2 * (q.num % q.den) = q.den := by
    rw [hfract, div_eq_div_iff hden.ne' (by norm_num), one_mul, mul_comm]
    exact_mod_cast Iff.rfl
  simp only [round, roundEven, hlt, heq, floor_eq]

theorem one_le_value_iff {q : Fraction} (h : 0 < q.den) : 1 ≤ q.value ↔ q.den ≤ q.num := by
  rw [value, one_le_div (by exact_mod_cast h), Nat.cast_le]

/-- The value is within a factor of two of the quotient of the powers of two that the numerator
and the denominator reach. -/
theorem value_bounds {q : Fraction} (hnum : 0 < q.num) (hden : 0 < q.den) :
    (2 : ℚ) ^ ((q.num.log2 : ℤ) - q.den.log2 - 1) ≤ q.value ∧
      q.value < 2 ^ ((q.num.log2 : ℤ) - q.den.log2 + 1) := by
  have hnum1 := two_zpow_log2_le hnum.ne'
  have hnum2 := lt_two_zpow_log2 q.num
  have hden1 := two_zpow_log2_le hden.ne'
  have hden2 := lt_two_zpow_log2 q.den
  set a := q.num.log2
  set b := q.den.log2
  have hpos : (0 : ℚ) < q.den := by exact_mod_cast hden
  constructor
  · rw [value, le_div_iff₀ hpos]
    calc (2 : ℚ) ^ ((a : ℤ) - b - 1) * q.den
        ≤ 2 ^ ((a : ℤ) - b - 1) * 2 ^ ((b : ℤ) + 1) := by gcongr
      _ = 2 ^ (a : ℤ) := by rw [← zpow_add₀ (by norm_num)]; congr 1; ring
      _ ≤ q.num := hnum1
  · rw [value, div_lt_iff₀ hpos]
    calc (q.num : ℚ) < 2 ^ ((a : ℤ) + 1) := hnum2
      _ = 2 ^ ((a : ℤ) - b + 1) * 2 ^ (b : ℤ) := by
          rw [← zpow_add₀ (by norm_num)]; congr 1; ring
      _ ≤ 2 ^ ((a : ℤ) - b + 1) * q.den := by gcongr

theorem floorLog2_eq {q : Fraction} (hnum : 0 < q.num) (hden : 0 < q.den) :
    q.floorLog2 = Int.log 2 q.value := by
  obtain ⟨hlow, hhigh⟩ := value_bounds hnum hden
  set k : ℤ := (q.num.log2 : ℤ) - q.den.log2 with hk
  have hstep : (q.scale 2 (-k)).den ≤ (q.scale 2 (-k)).num ↔ (2 : ℚ) ^ k ≤ q.value := by
    rw [← one_le_value_iff (den_scale_pos hden (by norm_num) _), value_scale q (by norm_num),
      zpow_neg, ← div_eq_mul_inv, one_le_div (by positivity)]
    rfl
  show (if (q.scale 2 (-k)).den ≤ (q.scale 2 (-k)).num then k else k - 1) = _
  split
  · next h => exact (log_two_eq (hstep.mp h) hhigh).symm
  · next h =>
      refine (log_two_eq hlow ?_).symm
      rw [sub_add_cancel]
      exact not_le.mp (fun hle => h (hstep.mpr hle))

end Fraction

end MiniLisp
