import MiniLisp.Number.Rounding
import MiniLisp.Proofs.Number.Value

set_option autoImplicit false

/-! # Rounding depends on the rational number alone

`Binary64.nearest` works on a numerator and a denominator, and `Binary64.ofDecimal` does not even
form the power of ten of a number that is far outside the range of doubles. What both give is a
function of the rational number that is rounded (`Binary64.nearestTo`), and that function leaves a
number alone that is a double already (`nearestTo_of_canonical`).
-/

namespace MiniLisp.Binary64

/-- The double nearest to a rational that is not negative, with a sign. -/
def nearestTo (negative : Bool) (x : ℚ) : Binary64 :=
  if x = 0 then zero negative else
    let e := if Int.log 2 x < -1022 then -1074 else Int.log 2 x - 52
    ofSignificand negative (roundEven (x * 2 ^ (-e))) e

theorem nearest_eq (negative : Bool) {q : Fraction} (hden : 0 < q.den) :
    nearest negative q = nearestTo negative q.value := by
  rw [nearest, nearestTo]
  by_cases hnum : q.num = 0
  · rw [if_pos hnum, if_pos (by simp [Fraction.value, hnum])]
  · have hvalue : q.value ≠ 0 := by
      rw [Fraction.value, Ne, div_eq_zero_iff]
      push Not
      exact ⟨by exact_mod_cast hnum, by exact_mod_cast hden.ne'⟩
    have hround : ∀ e : ℤ, (q.scale 2 (-e)).round = roundEven (q.value * 2 ^ (-e)) := by
      intro e
      rw [Fraction.round_eq (Fraction.den_scale_pos hden (by norm_num) _),
        Fraction.value_scale q (by norm_num), Nat.cast_ofNat]
    rw [if_neg hnum, if_neg hvalue, Fraction.floorLog2_eq (Nat.pos_of_ne_zero hnum) hden]
    simp only [hround]

/-! ## Doubles -/

theorem ofSignificand_of_canonical (negative : Bool) {m : ℕ} {e : ℤ} (h : Canonical m e) :
    ofSignificand negative m e = .finite negative m e h := by
  have hm : m ≠ 0x20000000000000 := by
    have := h.1
    omega
  rw [ofSignificand, if_neg hm]
  exact dif_pos h

theorem zero_eq_of_canonical (negative : Bool) {e : ℤ} (h : Canonical 0 e) :
    zero negative = .finite negative 0 e h := by
  obtain rfl : e = -1074 := by
    have := h.2.2.2
    omega
  rfl

/-- **A double is nearest to itself.** -/
theorem nearestTo_of_canonical (negative : Bool) {m : ℕ} {e : ℤ} (h : Canonical m e) :
    nearestTo negative (m * 2 ^ e) = .finite negative m e h := by
  rw [nearestTo]
  by_cases hm : m = 0
  · subst hm
    rw [if_pos (by simp), zero_eq_of_canonical negative h]
  · have hlow := two_zpow_log2_le hm
    have hhigh := lt_two_zpow_log2 m
    have hlog : Int.log 2 ((m : ℚ) * 2 ^ e) = m.log2 + e := by
      apply log_two_eq
      · rw [zpow_add₀ (by norm_num)]
        gcongr
      · rw [show (m.log2 : ℤ) + e + 1 = (m.log2 + 1) + e by ring, zpow_add₀ (by norm_num)]
        gcongr
    have hne : (m : ℚ) * 2 ^ e ≠ 0 := by
      have : (m : ℚ) ≠ 0 := by exact_mod_cast hm
      positivity
    -- the exponent that rounding chooses is the one the double has
    have hexp : (if m.log2 + e < -1022 then -1074 else m.log2 + e - 52) = e := by
      obtain ⟨hlt, hmin, -, hnormal⟩ := h
      have hlt53 : m.log2 < 53 := (Nat.log2_lt hm).mpr hlt
      rcases hnormal with hge | rfl
      · have hge52 : 52 ≤ m.log2 := (Nat.le_log2 hm).mpr hge
        omega
      · by_cases hge52 : 52 ≤ m.log2 <;> omega
    rw [if_neg hne]
    simp only [hlog, hexp]
    rw [mul_assoc, ← zpow_add₀ (by norm_num), add_neg_cancel, zpow_zero, mul_one,
      roundEven_natCast, ofSignificand_of_canonical negative h]

/-! ## Signs -/

theorem ofSignificand_sign {s t : Bool} {m n : ℕ} {e f : ℤ} {h : Canonical n f}
    (hx : ofSignificand s m e = .finite t n f h) (negative : Bool) :
    ofSignificand negative m e = .finite negative n f h := by
  simp only [ofSignificand] at hx ⊢
  -- the carry does not look at the sign
  generalize (if m = 0x20000000000000 then (0x10000000000000, e + 1) else (m, e)) = carried at hx ⊢
  split at hx
  · next hcanonical =>
      rw [dif_pos hcanonical]
      rw [finite.injEq] at hx ⊢
      exact ⟨rfl, hx.2⟩
  · contradiction

/-- Numbers of both signs are rounded alike. -/
theorem nearestTo_sign {s t : Bool} {x : ℚ} {m : ℕ} {e : ℤ} {h : Canonical m e}
    (hx : nearestTo s x = .finite t m e h) (negative : Bool) :
    nearestTo negative x = .finite negative m e h := by
  rw [nearestTo] at hx ⊢
  by_cases hzero : x = 0
  · rw [if_pos hzero, zero, finite.injEq] at hx ⊢
    exact ⟨rfl, hx.2⟩
  · rw [if_neg hzero] at hx ⊢
    exact ofSignificand_sign hx negative

/-! ## Numbers outside the range of doubles -/

/-- From `2 ^ 1024` on, the nearest double is infinite. -/
theorem nearestTo_of_le {negative : Bool} {x : ℚ} (h : (2 : ℚ) ^ (1024 : ℤ) ≤ x) :
    nearestTo negative x = .infinite negative := by
  have hx : 0 < x := lt_of_lt_of_le (by positivity) h
  have hlog : 1024 ≤ Int.log 2 x := (Int.zpow_le_iff_le_log (by norm_num) hx).mp h
  rw [nearestTo, if_neg hx.ne']
  simp only [show ¬ Int.log 2 x < -1022 by omega, if_false]
  generalize roundEven (x * 2 ^ (-(Int.log 2 x - 52))) = m
  rw [ofSignificand]
  by_cases hm : m = 0x20000000000000
  · rw [if_pos hm]
    exact dif_neg (fun hc => by have := hc.2.2.1; omega)
  · rw [if_neg hm]
    exact dif_neg (fun hc => by have := hc.2.2.1; omega)

/-- Up to `2 ^ (-1075)`, half the least double, the nearest double is zero. -/
theorem nearestTo_of_tiny {negative : Bool} {x : ℚ} (h0 : 0 < x) (h : x ≤ (2 : ℚ) ^ (-1075 : ℤ)) :
    nearestTo negative x = zero negative := by
  have hlog : Int.log 2 x < -1074 := by
    apply (Int.lt_zpow_iff_log_lt (by norm_num) h0).mp
    calc x ≤ 2 ^ (-1075 : ℤ) := h
      _ < ((2 : ℕ) : ℚ) ^ (-1074 : ℤ) := zpow_lt_zpow_right₀ (by norm_num) (by norm_num)
  rw [nearestTo, if_neg h0.ne']
  simp only [show Int.log 2 x < -1022 by omega, if_true]
  have hsmall : x * 2 ^ (-(-1074) : ℤ) ≤ 1 / 2 := by
    calc x * 2 ^ (-(-1074) : ℤ) ≤ 2 ^ (-1075 : ℤ) * 2 ^ (-(-1074) : ℤ) := by gcongr
      _ = 1 / 2 := by rw [← zpow_add₀ (by norm_num)]; norm_num
  rw [roundEven_eq_zero (by positivity) hsmall]
  exact ofSignificand_of_canonical negative (by decide)

/-! ## Decimals -/

/-- **A decimal is rounded as the rational that it stands for**, however large its exponent. -/
theorem ofDecimal_eq (negative : Bool) (digits : ℕ) (exponent : ℤ) :
    ofDecimal negative digits exponent = nearestTo negative (digits * 10 ^ exponent) := by
  rw [ofDecimal]
  by_cases hd : digits = 0
  · rw [if_pos hd, nearestTo, if_pos (by simp [hd])]
  have hpos : (0 : ℚ) < digits := by exact_mod_cast Nat.pos_of_ne_zero hd
  have height : (2 : ℚ) ^ (3 * exponent) = 8 ^ exponent := by
    rw [zpow_mul]
    norm_num
  rw [if_neg hd]
  split
  · next h =>
      obtain ⟨h0, hlarge⟩ := h
      refine (nearestTo_of_le ?_).symm
      have hdigits := two_zpow_log2_le hd
      calc (2 : ℚ) ^ (1024 : ℤ) ≤ 2 ^ ((digits.log2 : ℤ) + 3 * exponent) :=
            zpow_le_zpow_right₀ (by norm_num) hlarge
        _ = 2 ^ (digits.log2 : ℤ) * 8 ^ exponent := by rw [zpow_add₀ (by norm_num), height]
        _ ≤ digits * 10 ^ exponent :=
            mul_le_mul hdigits (zpow_le_zpow_left₀ h0 (by norm_num) (by norm_num))
              (by positivity) hpos.le
  split
  · next h =>
      obtain ⟨h0, hsmall⟩ := h
      refine (nearestTo_of_tiny (by positivity) (le_of_lt ?_)).symm
      have hdigits := lt_two_zpow_log2 digits
      have hpower : (10 : ℚ) ^ exponent ≤ 8 ^ exponent := by
        rw [← neg_neg exponent, zpow_neg, zpow_neg (8 : ℚ)]
        exact inv_anti₀ (by positivity) (zpow_le_zpow_left₀ (by omega) (by norm_num) (by norm_num))
      calc (digits : ℚ) * 10 ^ exponent < 2 ^ ((digits.log2 : ℤ) + 1) * 8 ^ exponent :=
            mul_lt_mul hdigits hpower (by positivity) (by positivity)
        _ = 2 ^ ((digits.log2 : ℤ) + 1 + 3 * exponent) := by
            rw [zpow_add₀ (by norm_num) _ (3 * exponent), height]
        _ ≤ 2 ^ (-1075 : ℤ) := zpow_le_zpow_right₀ (by norm_num) (by omega)
  · rw [nearest_eq negative (Fraction.den_scale_pos (by norm_num) (by norm_num) _),
      Fraction.value_scale _ (by norm_num)]
    simp [Fraction.value]

end MiniLisp.Binary64
