import MiniLisp.Proofs.Number.Nearest

set_option autoImplicit false

/-! # Rounding gives the closest double

What `Binary64.nearestTo` computes by choosing an exponent and rounding to a whole number of its
units is described here without exponents (`Rounded`): below the point halfway between the largest
double and `2 ^ 1024` no double is closer to the number, and if another one is as close, the
significand of the result is even; from that point on the result is infinite.

A double is on the grid of the units that rounding chooses, and then a whole number of them is
compared with the nearest whole number; or it has a smaller exponent, and then it lies below the
least number of 53 bits in these units, which is on the grid and not above the number
(`canonical_cases`).

The description fits one double only (`Rounded.unique`), since between two doubles with even
significands there is a third. The numbers with one and the same result have no gaps
(`nearestTo_between`).
-/

namespace MiniLisp

/-! ## Whole numbers -/

/-- Rounding goes down if that is not the longer way, or up if that is not the longer way. -/
theorem roundEven_cases {y : ℚ} (hy : 0 ≤ y) :
    (roundEven y = ⌊y⌋₊ ∧ y - ⌊y⌋₊ ≤ 1 / 2 ∧ (y - ⌊y⌋₊ = 1 / 2 → ⌊y⌋₊ % 2 = 0)) ∨
      (roundEven y = ⌊y⌋₊ + 1 ∧ 1 / 2 ≤ y - ⌊y⌋₊ ∧ (y - ⌊y⌋₊ = 1 / 2 → (⌊y⌋₊ + 1) % 2 = 0)) := by
  have hfract : Int.fract y = y - ⌊y⌋₊ := by
    rw [Int.fract, natCast_floor_eq_intCast_floor hy]
  rw [roundEven, hfract]
  split
  · next h =>
      left
      rcases h with h | ⟨h, heven⟩
      · exact ⟨rfl, h.le, fun heq => absurd heq h.ne⟩
      · exact ⟨rfl, h.le, fun _ => heven⟩
  · next h =>
      right
      rw [not_or, not_and, not_lt] at h
      exact ⟨rfl, h.1, fun heq => by have := h.2 heq; omega⟩

/-- Rounding goes half a unit at most, and half a unit only to an even number. -/
theorem abs_roundEven_sub_le {y : ℚ} (hy : 0 ≤ y) :
    |(roundEven y : ℚ) - y| ≤ 1 / 2 ∧ (|(roundEven y : ℚ) - y| = 1 / 2 → roundEven y % 2 = 0) := by
  have hle := Nat.floor_le hy
  have hlt := Nat.lt_floor_add_one y
  rcases roundEven_cases hy with ⟨hround, hhalf, heven⟩ | ⟨hround, hhalf, heven⟩
  · have hdown : |(roundEven y : ℚ) - y| = y - ⌊y⌋₊ := by
      rw [hround, abs_sub_comm, abs_of_nonneg (by linarith)]
    rw [hdown, hround]
    exact ⟨hhalf, heven⟩
  · have hup : |(roundEven y : ℚ) - y| = ⌊y⌋₊ + 1 - y := by
      rw [hround, Nat.cast_succ, abs_of_nonneg (by linarith)]
    rw [hup, hround]
    exact ⟨by linarith, fun heq => heven (by linarith)⟩

/-- No whole number is closer, and if another one is as close, the result is even. -/
theorem roundEven_closest {y : ℚ} (hy : 0 ≤ y) (k : ℕ) :
    |(roundEven y : ℚ) - y| ≤ |(k : ℚ) - y| ∧
      (k ≠ roundEven y → |(roundEven y : ℚ) - y| = |(k : ℚ) - y| → roundEven y % 2 = 0) := by
  obtain ⟨hhalf, heven⟩ := abs_roundEven_sub_le hy
  by_cases hk : k = roundEven y
  · rw [hk]
    exact ⟨le_refl _, fun hne => absurd rfl hne⟩
  -- another whole number is a unit away from the result, so half a unit at least from `y`
  · have hunit : (1 : ℚ) ≤ |(k : ℚ) - roundEven y| := by
      exact_mod_cast Int.one_le_abs (sub_ne_zero.mpr (Nat.cast_injective.ne hk))
    have htriangle := abs_sub_le (k : ℚ) y (roundEven y)
    rw [abs_sub_comm y] at htriangle
    exact ⟨by linarith, fun _ heq => heven (by linarith)⟩

/-- Between whole numbers, rounding stays between them. -/
theorem le_roundEven {y : ℚ} (hy : 0 ≤ y) {k : ℕ} (h : (k : ℚ) ≤ y) : k ≤ roundEven y := by
  have hfloor : k ≤ ⌊y⌋₊ := Nat.le_floor h
  rcases roundEven_cases hy with ⟨hround, -⟩ | ⟨hround, -⟩ <;> omega

theorem roundEven_le {y : ℚ} (hy : 0 ≤ y) {k : ℕ} (h : y < k) : roundEven y ≤ k := by
  have hfloor : ⌊y⌋₊ < k := (Nat.floor_lt hy).mpr h
  rcases roundEven_cases hy with ⟨hround, -⟩ | ⟨hround, -⟩ <;> omega

/-- A number less than half a unit above a whole number is not rounded above it. -/
theorem roundEven_le_of_lt {y : ℚ} (hy : 0 ≤ y) {k : ℕ} (h : y < k + 1 / 2) : roundEven y ≤ k := by
  have hle := Nat.floor_le hy
  rcases roundEven_cases hy with ⟨hround, hhalf, -⟩ | ⟨hround, hhalf, -⟩
  · have hfloor : (⌊y⌋₊ : ℚ) < k + 1 := by linarith
    have : ⌊y⌋₊ < k + 1 := by exact_mod_cast hfloor
    omega
  · have hfloor : (⌊y⌋₊ : ℚ) < k := by linarith
    have : ⌊y⌋₊ < k := by exact_mod_cast hfloor
    omega

/-- From half a unit above an odd number on, rounding goes above it. -/
theorem lt_roundEven_of_le {y : ℚ} (hy : 0 ≤ y) {k : ℕ} (hodd : k % 2 = 1) (h : k + 1 / 2 ≤ y) :
    k < roundEven y := by
  have hfloor : k ≤ ⌊y⌋₊ := Nat.le_floor (by linarith)
  rcases roundEven_cases hy with ⟨hround, hhalf, heven⟩ | ⟨hround, -⟩
  · by_contra hle
    have hk : ⌊y⌋₊ = k := by omega
    rw [hk] at hhalf heven
    have := heven (by linarith)
    omega
  · omega

/-! ## The size of a double -/

theorem Canonical.lt_zpow {m : ℕ} {e : ℤ} (h : Canonical m e) : (m : ℚ) * 2 ^ e < 2 ^ (e + 53) := by
  have hm : (m : ℚ) < 2 ^ (53 : ℤ) := by
    have := h.1
    norm_num
    exact_mod_cast this
  calc (m : ℚ) * 2 ^ e < 2 ^ (53 : ℤ) * 2 ^ e := by gcongr
    _ = 2 ^ (e + 53) := by rw [← zpow_add₀ (by norm_num), add_comm]

/-- A double with an exponent above the least one has 53 bits. -/
theorem Canonical.zpow_le {m : ℕ} {e : ℤ} (h : Canonical m e) (he : -1074 < e) :
    (2 : ℚ) ^ (e + 52) ≤ m * 2 ^ e := by
  have hm : (2 : ℚ) ^ (52 : ℤ) ≤ m := by
    have hfull : 0x10000000000000 ≤ m := by
      have := h.2.2.2
      omega
    norm_num
    exact_mod_cast hfull
  calc (2 : ℚ) ^ (e + 52) = 2 ^ (52 : ℤ) * 2 ^ e := by rw [← zpow_add₀ (by norm_num), add_comm]
    _ ≤ m * 2 ^ e := by gcongr

namespace Binary64

/-! ## The closest double -/

/-- The rational number of a finite double. -/
def value? : Binary64 → Option ℚ
  | .finite s m e _ => some (signed s m * 2 ^ e)
  | _ => none

/-- The point halfway between the largest double and `2 ^ 1024`. -/
def overflow : ℚ := 2 ^ (1024 : ℤ) - 2 ^ (970 : ℤ)

theorem overflow_eq : overflow = (0x1fffffffffffff + 1 / 2) * 2 ^ (971 : ℤ) := by
  have hhigh : (2 : ℚ) ^ (1024 : ℤ) = 2 ^ 53 * 2 ^ (971 : ℤ) := by
    rw [← zpow_natCast, ← zpow_add₀ (by norm_num)]
    rfl
  have hlow : (2 : ℚ) ^ (971 : ℤ) = 2 * 2 ^ (970 : ℤ) := by
    rw [← zpow_one_add₀ (by norm_num)]
    rfl
  rw [overflow, hhigh, hlow]
  ring

/-- A number with a sign. -/
def withSignOf (negative : Bool) (x : ℚ) : ℚ := if negative then -x else x

/-- No double is closer to a number than `± significand * 2 ^ exponent`, and if another one is as
close, the significand is even. -/
def Closest (r : ℚ) (negative : Bool) (significand : ℕ) (exponent : ℤ) : Prop :=
  ∀ y v, value? y = some v →
    |signed negative significand * 2 ^ exponent - r| ≤ |v - r| ∧
      (v ≠ signed negative significand * 2 ^ exponent →
        |signed negative significand * 2 ^ exponent - r| = |v - r| → significand % 2 = 0)

/-- The same among the doubles that are not negative. -/
def ClosestSize (x : ℚ) (significand : ℕ) (exponent : ℤ) : Prop :=
  ∀ n f, Canonical n f →
    |(significand : ℚ) * 2 ^ exponent - x| ≤ |(n : ℚ) * 2 ^ f - x| ∧
      ((n : ℚ) * 2 ^ f ≠ significand * 2 ^ exponent →
        |(significand : ℚ) * 2 ^ exponent - x| = |(n : ℚ) * 2 ^ f - x| → significand % 2 = 0)

/-- Whether a double is what a number with a sign is rounded to. The sign is told apart, since the
zeros have one too. -/
structure Rounded (negative : Bool) (r : ℚ) (x : Binary64) : Prop where
  infinite : overflow ≤ |r| → x = .infinite negative
  finite : |r| < overflow → ∃ m e h, x = .finite negative m e h ∧ Closest r negative m e
  zero : |r| ≤ 2 ^ (-1075 : ℤ) → x = Binary64.zero negative

/-- Of a positive number, rounding keeps 53 bits, or fewer if the exponent is the least one. -/
theorem nearestTo_of_pos {x : ℚ} (hx : 0 < x) :
    ∃ e : ℤ, -1074 ≤ e ∧ x < 2 ^ (e + 53) ∧ (2 ^ (e + 52) ≤ x ∨ e = -1074) ∧
      ∀ negative, nearestTo negative x = ofSignificand negative (roundEven (x * 2 ^ (-e))) e := by
  have hlow := Int.zpow_log_le_self (b := 2) (by norm_num) hx
  have hhigh := Int.lt_zpow_succ_log_self (b := 2) (by norm_num) x
  push_cast at hlow hhigh
  have hround : ∀ negative, nearestTo negative x = ofSignificand negative
      (roundEven (x * 2 ^ (-(if Int.log 2 x < -1022 then -1074 else Int.log 2 x - 52))))
      (if Int.log 2 x < -1022 then -1074 else Int.log 2 x - 52) := by
    intro negative
    rw [nearestTo, if_neg hx.ne']
  by_cases hsmall : Int.log 2 x < -1022
  · simp only [if_pos hsmall] at hround
    refine ⟨-1074, le_refl _, ?_, Or.inr rfl, hround⟩
    calc x < 2 ^ (Int.log 2 x + 1) := hhigh
      _ ≤ 2 ^ (-1074 + 53 : ℤ) := zpow_le_zpow_right₀ (by norm_num) (by omega)
  · simp only [if_neg hsmall] at hround
    refine ⟨Int.log 2 x - 52, by omega, ?_, Or.inl ?_, hround⟩
    · rwa [show Int.log 2 x - 52 + 53 = Int.log 2 x + 1 by ring]
    · rwa [sub_add_cancel]

/-- A significand of at most `2 ^ 53` makes a double of the same value, with an even significand if
it was even, or is too large for one. -/
theorem ofSignificand_cases (negative : Bool) {n : ℕ} {e : ℤ} (hn : n ≤ 0x20000000000000)
    (he : -1074 ≤ e) (hnormal : 0x10000000000000 ≤ n ∨ e = -1074) :
    ((e < 971 ∨ e = 971 ∧ n < 0x20000000000000) ∧
        ∃ m f h, ofSignificand negative n e = .finite negative m f h ∧
          (m : ℚ) * 2 ^ f = n * 2 ^ e ∧ (n % 2 = 0 → m % 2 = 0)) ∨
      (¬ (e < 971 ∨ e = 971 ∧ n < 0x20000000000000) ∧
        ofSignificand negative n e = .infinite negative) := by
  rw [ofSignificand]
  by_cases hcarry : n = 0x20000000000000
  · rw [if_pos hcarry]
    by_cases hfits : e < 971
    · have hcanonical : Canonical 0x10000000000000 (e + 1) :=
        ⟨by norm_num, by omega, by omega, Or.inl (le_refl _)⟩
      refine Or.inl ⟨Or.inl hfits, _, _, hcanonical, dif_pos hcanonical, ?_, fun _ => rfl⟩
      rw [hcarry, zpow_add₀ (by norm_num)]
      norm_num
      ring
    · refine Or.inr ⟨by omega, dif_neg ?_⟩
      intro hcanonical
      have := hcanonical.2.2.1
      omega
  · rw [if_neg hcarry]
    by_cases hfits : e ≤ 971
    · have hcanonical : Canonical n e := ⟨by omega, he, hfits, hnormal⟩
      exact Or.inl ⟨by omega, n, e, hcanonical, dif_pos hcanonical, rfl, id⟩
    · refine Or.inr ⟨by omega, dif_neg ?_⟩
      intro hcanonical
      have := hcanonical.2.2.1
      omega

/-- A number of units of a larger exponent, counted in units of a smaller one. -/
theorem in_units (m k : ℕ) (e : ℤ) : (m : ℚ) * 2 ^ (k + e) = (m * 2 ^ k : ℕ) * 2 ^ e := by
  rw [zpow_add₀ (by norm_num), zpow_natCast]
  push_cast
  ring

/-- A double is a whole number of units, or below the least number of 53 bits in these units. -/
theorem canonical_cases {m : ℕ} {f : ℤ} (h : Canonical m f) (e : ℤ) :
    (∃ k : ℕ, (m : ℚ) * 2 ^ f = k * 2 ^ e) ∨ -1074 < e ∧ (m : ℚ) * 2 ^ f < 2 ^ (e + 52) := by
  by_cases hef : e ≤ f
  · left
    obtain ⟨k, hk⟩ := Int.eq_ofNat_of_zero_le (show 0 ≤ f - e by omega)
    obtain rfl : f = k + e := by omega
    exact ⟨m * 2 ^ k, in_units m k e⟩
  · right
    refine ⟨by have := h.2.1; omega, ?_⟩
    calc (m : ℚ) * 2 ^ f < 2 ^ (f + 53) := h.lt_zpow
      _ ≤ 2 ^ (e + 52) := zpow_le_zpow_right₀ (by norm_num) (by omega)

/-- **Of the doubles that are not negative, the one that rounding gives is closest.** -/
theorem closestSize_roundEven {x : ℚ} (hx : 0 < x) {e : ℤ}
    (hnormal : 2 ^ (e + 52) ≤ x ∨ e = -1074) :
    ClosestSize x (roundEven (x * 2 ^ (-e))) e := by
  intro n f h
  have hunit : (0 : ℚ) < 2 ^ e := by positivity
  have hy : 0 ≤ x * 2 ^ (-e) := by positivity
  -- distances are counted in units
  have hscale : ∀ k : ℕ, |(k : ℚ) * 2 ^ e - x| = |(k : ℚ) - x * 2 ^ (-e)| * 2 ^ e := by
    intro k
    have hcancel : x * 2 ^ (-e) * 2 ^ e = x := by
      rw [mul_assoc, ← zpow_add₀ (by norm_num), neg_add_cancel, zpow_zero, mul_one]
    rw [← abs_of_pos hunit, ← abs_mul, abs_of_pos hunit, sub_mul, hcancel]
  rcases canonical_cases h e with ⟨k, hk⟩ | ⟨hleast, hbelow⟩
  · obtain ⟨hclosest, heven⟩ := roundEven_closest hy k
    rw [hk, hscale, hscale]
    refine ⟨by gcongr, fun hne heq => heven ?_ (mul_right_cancel₀ hunit.ne' heq)⟩
    rintro rfl
    exact hne rfl
  -- the least number of 53 bits lies between the other double and the number
  · have hle : 2 ^ (e + 52) ≤ x := by
      rcases hnormal with hle | heq
      · exact hle
      · omega
    have hleastNumber : ((2 ^ 52 : ℕ) : ℚ) * 2 ^ e = 2 ^ (e + 52) := by
      rw [zpow_add₀ (by norm_num), mul_comm]
      norm_num
    have hclosest := (roundEven_closest hy (2 ^ 52)).1
    have hlt : |(roundEven (x * 2 ^ (-e)) : ℚ) * 2 ^ e - x| < |(n : ℚ) * 2 ^ f - x| := by
      calc |(roundEven (x * 2 ^ (-e)) : ℚ) * 2 ^ e - x|
          ≤ |((2 ^ 52 : ℕ) : ℚ) * 2 ^ e - x| := by rw [hscale, hscale]; gcongr
        _ = x - 2 ^ (e + 52) := by rw [hleastNumber, abs_sub_comm, abs_of_nonneg (by linarith)]
        _ < x - n * 2 ^ f := by linarith
        _ = |(n : ℚ) * 2 ^ f - x| := by rw [abs_sub_comm, abs_of_nonneg (by linarith)]
    exact ⟨hlt.le, fun _ heq => absurd heq hlt.ne⟩

/-- A number in units, where rounding keeps 53 bits or fewer. -/
theorem roundEven_bounds {x : ℚ} (hx : 0 < x) {e : ℤ} (hlt : x < 2 ^ (e + 53))
    (hnormal : 2 ^ (e + 52) ≤ x ∨ e = -1074) :
    roundEven (x * 2 ^ (-e)) ≤ 0x20000000000000 ∧
      (0x10000000000000 ≤ roundEven (x * 2 ^ (-e)) ∨ e = -1074) := by
  have hy : 0 ≤ x * 2 ^ (-e) := by positivity
  have hpower : ∀ k : ℕ, (2 : ℚ) ^ (e + k) * 2 ^ (-e) = ((2 ^ k : ℕ) : ℚ) := by
    intro k
    rw [← zpow_add₀ (by norm_num), show e + k + -e = (k : ℤ) by ring, zpow_natCast]
    push_cast
    rfl
  constructor
  · apply roundEven_le hy
    calc x * 2 ^ (-e) < 2 ^ (e + (53 : ℕ)) * 2 ^ (-e) :=
          mul_lt_mul_of_pos_right hlt (by positivity)
      _ = ((2 ^ 53 : ℕ) : ℚ) := hpower 53
  · refine hnormal.imp_left fun hle => le_roundEven hy ?_
    calc ((2 ^ 52 : ℕ) : ℚ) = 2 ^ (e + (52 : ℕ)) * 2 ^ (-e) := (hpower 52).symm
      _ ≤ x * 2 ^ (-e) := mul_le_mul_of_nonneg_right hle (by positivity)

/-- What rounding keeps fits the doubles if and only if the number is below the overflow. -/
theorem lt_overflow_iff {x : ℚ} (hx : 0 < x) {e : ℤ} (hlt : x < 2 ^ (e + 53))
    (hnormal : 2 ^ (e + 52) ≤ x ∨ e = -1074) :
    x < overflow ↔ e < 971 ∨ e = 971 ∧ roundEven (x * 2 ^ (-e)) < 0x20000000000000 := by
  have hy : 0 ≤ x * 2 ^ (-e) := by positivity
  rcases lt_trichotomy e 971 with he | rfl | he
  · refine iff_of_true ?_ (Or.inl he)
    calc x < 2 ^ (e + 53) := hlt
      _ ≤ 2 ^ (52 + 971 : ℤ) := zpow_le_zpow_right₀ (by norm_num) (by omega)
      _ = 2 ^ (52 : ℤ) * 2 ^ (971 : ℤ) := zpow_add₀ (by norm_num) _ _
      _ ≤ overflow := by
          rw [overflow_eq]
          gcongr
          norm_num
  · have hunits : x * 2 ^ (-971 : ℤ) * 2 ^ (971 : ℤ) = x := by
      rw [mul_assoc, ← zpow_add₀ (by norm_num), neg_add_cancel, zpow_zero, mul_one]
    constructor
    · intro h
      rw [overflow_eq, ← hunits] at h
      have hhalf := lt_of_mul_lt_mul_right h (by positivity)
      have := roundEven_le_of_lt (k := 0x1fffffffffffff) hy (by exact_mod_cast hhalf)
      omega
    · intro h
      by_contra hge
      rw [not_lt, overflow_eq, ← hunits] at hge
      have hhalf := le_of_mul_le_mul_right hge (by positivity)
      have := lt_roundEven_of_le (k := 0x1fffffffffffff) hy (by norm_num) (by exact_mod_cast hhalf)
      omega
  · refine iff_of_false ?_ (by omega)
    rw [not_lt]
    have hle : 2 ^ (e + 52) ≤ x := by
      rcases hnormal with hle | heq
      · exact hle
      · omega
    calc overflow ≤ 2 ^ (1024 : ℤ) := sub_le_self _ (by positivity)
      _ ≤ 2 ^ (e + 52) := zpow_le_zpow_right₀ (by norm_num) (by omega)
      _ ≤ x := hle

/-! ## Signs -/

theorem signed_mul (negative : Bool) (m : ℕ) (e : ℤ) :
    (signed negative m : ℚ) * 2 ^ e = withSignOf negative (m * 2 ^ e) := by
  cases negative <;> simp [signed, withSignOf]

theorem abs_withSignOf_sub (negative : Bool) (x y : ℚ) :
    |withSignOf negative x - withSignOf negative y| = |x - y| := by
  cases negative with
  | false => rfl
  | true =>
      rw [withSignOf, withSignOf, if_pos rfl, if_pos rfl, neg_sub_neg]
      exact abs_sub_comm y x

theorem abs_withSignOf (negative : Bool) {x : ℚ} (hx : 0 ≤ x) : |withSignOf negative x| = x := by
  cases negative with
  | false => exact abs_of_nonneg hx
  | true =>
      rw [withSignOf, if_pos rfl, abs_neg, abs_of_nonneg hx]

theorem withSignOf_injective (negative : Bool) {x y : ℚ}
    (h : withSignOf negative x = withSignOf negative y) : x = y := by
  cases negative with
  | false => exact h
  | true => exact neg_injective h

/-- A double is a number that is not negative, with the sign, or minus one. -/
theorem value?_cases {y : Binary64} {v : ℚ} (h : value? y = some v) (negative : Bool) :
    ∃ n f, Canonical n f ∧
      (v = withSignOf negative (n * 2 ^ f) ∨ v = withSignOf negative (-(n * 2 ^ f))) := by
  cases y with
  | nan => contradiction
  | infinite s => contradiction
  | finite s n f hcanonical =>
      obtain rfl := Option.some.inj h
      refine ⟨n, f, hcanonical, ?_⟩
      rw [signed_mul]
      cases s <;> cases negative <;> simp [withSignOf]

/-- What is closest of the doubles that are not negative is closest of all, with the sign. -/
theorem ClosestSize.closest {x : ℚ} (hx : 0 ≤ x) {m : ℕ} {e : ℤ} (h : ClosestSize x m e)
    (negative : Bool) : Closest (withSignOf negative x) negative m e := by
  intro y v hv
  obtain ⟨n, f, hcanonical, rfl | rfl⟩ := value?_cases hv negative
  · obtain ⟨hclosest, heven⟩ := h n f hcanonical
    rw [signed_mul, abs_withSignOf_sub, abs_withSignOf_sub]
    refine ⟨hclosest, fun hne heq => heven ?_ heq⟩
    intro hsame
    exact hne (by rw [hsame])
  -- zero is not farther away than a double on the other side of it
  · have hzero : Canonical 0 (-1074) := by decide
    obtain ⟨hclosest, heven⟩ := h 0 (-1074) hzero
    have hother : |-((n : ℚ) * 2 ^ f) - x| = n * 2 ^ f + x := by
      rw [← neg_add', abs_neg, abs_of_nonneg (by positivity)]
    have hnear : |((0 : ℕ) : ℚ) * 2 ^ (-1074 : ℤ) - x| = x := by
      rw [Nat.cast_zero, zero_mul, zero_sub, abs_neg, abs_of_nonneg hx]
    have hpos : (0 : ℚ) ≤ n * 2 ^ f := by positivity
    rw [hnear] at hclosest heven
    rw [signed_mul, abs_withSignOf_sub, abs_withSignOf_sub, hother]
    refine ⟨by linarith, fun hne heq => ?_⟩
    have hn : (n : ℚ) * 2 ^ f = 0 := by linarith
    refine heven ?_ (by linarith)
    rw [Nat.cast_zero, zero_mul, ← hn]
    intro hsame
    rw [hn] at hsame hne
    exact hne (by rw [neg_zero, ← hsame])

theorem rounded_zero (negative : Bool) :
    Rounded negative (withSignOf negative 0) (zero negative) := by
  have hoverflow : 0 < overflow := by
    rw [overflow_eq]
    positivity
  refine ⟨fun h => ?_, fun _ => ⟨0, -1074, by decide, rfl, ?_⟩, fun _ => rfl⟩
  · rw [abs_withSignOf negative (le_refl _)] at h
    exact absurd hoverflow (not_lt.mpr h)
  · apply ClosestSize.closest (le_refl _)
    intro n f _
    rw [Nat.cast_zero, zero_mul, sub_self, abs_zero]
    exact ⟨abs_nonneg _, fun _ _ => rfl⟩

/-- **Rounding is correct**, for every number that is not negative, with either sign. -/
theorem rounded_nearestTo (negative : Bool) {x : ℚ} (hx : 0 ≤ x) :
    Rounded negative (withSignOf negative x) (nearestTo negative x) := by
  rcases hx.eq_or_lt with rfl | hpos
  · rw [nearestTo, if_pos rfl]
    exact rounded_zero negative
  · obtain ⟨e, he, hlt, hnormal, hround⟩ := nearestTo_of_pos hpos
    obtain ⟨hn, hnormal'⟩ := roundEven_bounds hpos hlt hnormal
    have hoverflow := lt_overflow_iff hpos hlt hnormal
    refine ⟨fun h => ?_, fun h => ?_, fun h => ?_⟩
    all_goals rw [abs_withSignOf negative hx] at h
    · rw [hround]
      rcases ofSignificand_cases negative hn he hnormal' with ⟨hfits, -⟩ | ⟨-, hinfinite⟩
      · exact absurd (hoverflow.mpr hfits) (not_lt.mpr h)
      · exact hinfinite
    · rw [hround]
      rcases ofSignificand_cases negative hn he hnormal' with
        ⟨-, m, f, hcanonical, hfinite, hvalue, heven⟩ | ⟨hnot, -⟩
      · refine ⟨m, f, hcanonical, hfinite, ClosestSize.closest hx ?_ negative⟩
        intro n g hother
        obtain ⟨hclosest, htie⟩ := closestSize_roundEven hpos hnormal n g hother
        rw [hvalue]
        exact ⟨hclosest, fun hne heq => heven (htie hne heq)⟩
      · exact absurd (hoverflow.mp h) hnot
    · exact nearestTo_of_tiny hpos h

/-! ## One result -/

/-- Of two numbers on a line, the one closer to a third is on its side of the middle. -/
theorem le_middle_of_closer {a b c : ℚ} (hab : a < b) (h : |b - c| ≤ |a - c|) :
    a + b ≤ 2 * c := by
  rcases abs_cases (b - c) with ⟨hb, hsideb⟩ | ⟨hb, hsideb⟩ <;>
    rcases abs_cases (a - c) with ⟨ha, hsidea⟩ | ⟨ha, hsidea⟩ <;> linarith

theorem middle_le_of_closer {a b c : ℚ} (hab : a < b) (h : |a - c| ≤ |b - c|) :
    2 * c ≤ a + b := by
  rcases abs_cases (b - c) with ⟨hb, hsideb⟩ | ⟨hb, hsideb⟩ <;>
    rcases abs_cases (a - c) with ⟨ha, hsidea⟩ | ⟨ha, hsidea⟩ <;> linarith

/-- What is closest of all, with the sign, is closest of the doubles that are not negative. -/
theorem Closest.size {negative : Bool} {x : ℚ} {m : ℕ} {e : ℤ}
    (h : Closest (withSignOf negative x) negative m e) : ClosestSize x m e := by
  intro n f hn
  obtain ⟨hclosest, heven⟩ := h (.finite negative n f hn) _ rfl
  simp only [signed_mul, abs_withSignOf_sub] at hclosest heven
  refine ⟨hclosest, fun hne heq => heven ?_ heq⟩
  intro hsame
  exact hne (withSignOf_injective negative hsame)

/-- Between two doubles with even significands there is another one. -/
theorem exists_canonical_between {m n : ℕ} {e f : ℤ} (hm : Canonical m e) (hn : Canonical n f)
    (hmeven : m % 2 = 0) (hneven : n % 2 = 0) (hlt : (m : ℚ) * 2 ^ e < n * 2 ^ f) :
    ∃ k g, Canonical k g ∧ (m : ℚ) * 2 ^ e < k * 2 ^ g ∧ (k : ℚ) * 2 ^ g < n * 2 ^ f := by
  have hef : e ≤ f := by
    by_contra hfe
    have hleast := hn.2.1
    have hge : (n : ℚ) * 2 ^ f ≤ m * 2 ^ e := by
      calc (n : ℚ) * 2 ^ f ≤ 2 ^ (f + 53) := hn.lt_zpow.le
        _ ≤ 2 ^ (e + 52) := zpow_le_zpow_right₀ (by norm_num) (by omega)
        _ ≤ m * 2 ^ e := hm.zpow_le (by omega)
    exact absurd hlt (not_lt.mpr hge)
  obtain ⟨k, hk⟩ := Int.eq_ofNat_of_zero_le (show 0 ≤ f - e by omega)
  obtain rfl : f = k + e := by omega
  have hunit : (0 : ℚ) < 2 ^ e := by positivity
  -- in units of the lower exponent both are even, so the next number after the lower one is between
  rw [in_units] at hlt ⊢
  have hbelow : m < n * 2 ^ k := by exact_mod_cast lt_of_mul_lt_mul_right hlt hunit.le
  have heven : n * 2 ^ k % 2 = 0 := by rw [Nat.mul_mod, hneven, zero_mul, Nat.zero_mod]
  have hnext : m + 1 < n * 2 ^ k := by omega
  have hcanonical : Canonical (m + 1) e := by
    obtain ⟨hmlt, hleast, hgreatest, hnormal⟩ := hm
    exact ⟨by omega, hleast, hgreatest, by omega⟩
  refine ⟨m + 1, e, hcanonical, ?_, ?_⟩
  · exact mul_lt_mul_of_pos_right (by exact_mod_cast m.lt_succ_self) hunit
  · exact mul_lt_mul_of_pos_right (by exact_mod_cast hnext) hunit

/-- Of two doubles that are closest to a number, neither is the larger one. -/
theorem not_lt_of_closest {x : ℚ} {m n : ℕ} {e f : ℤ} (hm : Canonical m e) (hn : Canonical n f)
    (hmclosest : ClosestSize x m e) (hnclosest : ClosestSize x n f) :
    ¬ (m : ℚ) * 2 ^ e < n * 2 ^ f := by
  intro hlt
  obtain ⟨hmn, hmeven⟩ := hmclosest n f hn
  obtain ⟨hnm, hneven⟩ := hnclosest m e hm
  have htie : |(m : ℚ) * 2 ^ e - x| = |(n : ℚ) * 2 ^ f - x| := le_antisymm hmn hnm
  obtain ⟨k, g, hk, hmk, hkn⟩ :=
    exists_canonical_between hm hn (hmeven hlt.ne' htie) (hneven hlt.ne htie.symm) hlt
  -- one between them is closer than both
  have h1 := middle_le_of_closer hmk (hmclosest k g hk).1
  have h2 := le_middle_of_closer hkn (hnclosest k g hk).1
  linarith

/-- **A number is rounded to one double only.** -/
theorem Rounded.unique {negative : Bool} {x : ℚ} {a b : Binary64}
    (ha : Rounded negative (withSignOf negative x) a)
    (hb : Rounded negative (withSignOf negative x) b) : a = b := by
  by_cases h : overflow ≤ |withSignOf negative x|
  · rw [ha.infinite h, hb.infinite h]
  · obtain ⟨m, e, hm, rfl, hmclosest⟩ := ha.finite (not_le.mp h)
    obtain ⟨n, f, hn, rfl, hnclosest⟩ := hb.finite (not_le.mp h)
    have hvalue : (m : ℚ) * 2 ^ e = n * 2 ^ f := by
      apply le_antisymm
      · exact not_lt.mp (not_lt_of_closest hn hm hnclosest.size hmclosest.size)
      · exact not_lt.mp (not_lt_of_closest hm hn hmclosest.size hnclosest.size)
    rw [← nearestTo_of_canonical negative hm, hvalue, nearestTo_of_canonical negative hn]

/-! ## Numbers with the same result -/

/-- The double that a positive number is rounded to, if there is one, is closest. -/
theorem closest_of_nearestTo {x : ℚ} (hx : 0 < x) {m : ℕ} {e : ℤ} {h : Canonical m e}
    (hround : nearestTo false x = .finite false m e h) :
    x < overflow ∧ ClosestSize x m e := by
  have hrounded := rounded_nearestTo false hx.le
  rw [hround] at hrounded
  have hlt : x < overflow := by
    by_contra hge
    have := hrounded.infinite (by rwa [abs_withSignOf false hx.le, ← not_lt])
    contradiction
  refine ⟨hlt, ?_⟩
  obtain ⟨m', e', h', heq, hclosest⟩ := hrounded.finite (by rwa [abs_withSignOf false hx.le])
  cases heq
  exact hclosest.size

/-- **The numbers that are rounded to one double have no gaps.** -/
theorem nearestTo_between {a b c : ℚ} (ha0 : 0 < a) (hac : a ≤ c) (hcb : c ≤ b) {m : ℕ} {e : ℤ}
    {h : Canonical m e} (ha : nearestTo false a = .finite false m e h)
    (hb : nearestTo false b = .finite false m e h) : nearestTo false c = .finite false m e h := by
  have hc0 : 0 < c := lt_of_lt_of_le ha0 hac
  obtain ⟨-, haclosest⟩ := closest_of_nearestTo ha0 ha
  obtain ⟨hboverflow, hbclosest⟩ := closest_of_nearestTo (lt_of_lt_of_le hc0 hcb) hb
  obtain ⟨n, f, hn, hc, -⟩ := (rounded_nearestTo false hc0.le).finite (by
    rw [abs_withSignOf false hc0.le]
    exact lt_of_le_of_lt hcb hboverflow)
  obtain ⟨-, hcclosest⟩ := closest_of_nearestTo hc0 hc
  rcases lt_trichotomy ((m : ℚ) * 2 ^ e) (n * 2 ^ f) with hlt | heq | hgt
  -- a larger result is not closer to the number above, a smaller one not to the number below
  · have h1 := le_middle_of_closer hlt (hcclosest m e h).1
    have h2 := middle_le_of_closer hlt (hbclosest n f hn).1
    rw [show c = b by linarith, hb]
  · rw [hc, ← nearestTo_of_canonical false hn, ← heq, nearestTo_of_canonical false h]
  · have h1 := middle_le_of_closer hgt (hcclosest m e h).1
    have h2 := le_middle_of_closer hgt (haclosest n f hn).1
    rw [show c = a by linarith, ha]

end Binary64

end MiniLisp
