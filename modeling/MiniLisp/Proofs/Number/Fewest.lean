import MiniLisp.Proofs.Number.Closest
import MiniLisp.Proofs.Number.Shortest

set_option autoImplicit false

/-! # The shortest decimal has the fewest digits

No decimal with fewer digits than `Decimal.shortest` is rounded to the number that it was made from
(`Coarsest.digits_lt`). What is known of the search is that it stops on the coarsest grid that has a
point for the number (`Coarsest`): if a point of a grid is rounded to the number, one of the two
points around the number is, since the numbers with the same result have no gaps.

A number with fewer digits that is rounded to the same double would be a point of a coarser grid, or
would lie below a power of ten that is not above the double, and that power of ten would then be a
point of a coarser grid.
-/

namespace MiniLisp

/-! ## The order of magnitude -/

/-- Of a number with a given count of digits the powers of ten around it are known. -/
theorem ten_pow_length_toDigits {n : ℕ} (hn : 0 < n) :
    10 ^ ((Nat.toDigits 10 n).length - 1) ≤ n ∧ n < 10 ^ (Nat.toDigits 10 n).length := by
  have hpos : 0 < (Nat.toDigits 10 n).length := Nat.length_toDigits_pos
  constructor
  · by_contra hlt
    rw [not_le] at hlt
    rcases Nat.eq_zero_or_pos ((Nat.toDigits 10 n).length - 1) with hzero | hpos'
    · rw [hzero] at hlt
      omega
    · have := (Nat.length_toDigits_le_iff (by decide) hpos').mpr hlt
      omega
  · exact (Nat.length_toDigits_le_iff (by decide) hpos).mp (le_refl _)

theorem ten_zpow_length_div {a b : ℕ} (hb : 0 < b) (hle : b ≤ a) :
    (10 : ℚ) ^ (((Nat.toDigits 10 (a / b)).length : ℤ) - 1) ≤ a / b ∧
      (a : ℚ) / b < 10 ^ ((Nat.toDigits 10 (a / b)).length : ℤ) := by
  obtain ⟨hlow, hhigh⟩ := ten_pow_length_toDigits (Nat.div_pos hle hb)
  have hpos : 0 < (Nat.toDigits 10 (a / b)).length := Nat.length_toDigits_pos
  have hbq : (0 : ℚ) < b := by exact_mod_cast hb
  constructor
  · calc (10 : ℚ) ^ (((Nat.toDigits 10 (a / b)).length : ℤ) - 1)
        = (10 ^ ((Nat.toDigits 10 (a / b)).length - 1) : ℕ) := by
          rw [← Nat.cast_one, ← Nat.cast_sub hpos, zpow_natCast, Nat.cast_pow, Nat.cast_ofNat]
      _ ≤ (a / b : ℕ) := by exact_mod_cast hlow
      _ ≤ a / b := Nat.cast_div_le
  · rw [div_lt_iff₀ hbq, zpow_natCast]
    exact_mod_cast (Nat.div_lt_iff_lt_mul hb).mp hhigh

/-- The power of ten that is found for a fraction is at least the fraction, and at most ten times
it. -/
theorem Fraction.magnitude_bounds {q : Fraction} (hnum : 0 < q.num) (hden : 0 < q.den) :
    (10 : ℚ) ^ (q.magnitude - 1) ≤ q.value ∧ q.value ≤ 10 ^ q.magnitude := by
  rw [magnitude, value]
  split
  · next hle =>
      obtain ⟨hlow, hhigh⟩ := ten_zpow_length_div hden hle
      exact ⟨hlow, hhigh.le⟩
  -- below one, the bounds are those of the inverse
  · next hlt =>
      obtain ⟨hlow, hhigh⟩ := ten_zpow_length_div hnum (not_le.mp hlt).le
      set L : ℤ := ((Nat.toDigits 10 (q.den / q.num)).length : ℤ)
      have hnumq : (0 : ℚ) < q.num := by exact_mod_cast hnum
      have hdenq : (0 : ℚ) < q.den := by exact_mod_cast hden
      rw [← inv_div]
      constructor
      · rw [show 1 - L - 1 = -L by ring, zpow_neg]
        exact inv_anti₀ (by positivity) hhigh.le
      · rw [← neg_sub L 1, zpow_neg]
        exact inv_anti₀ (by positivity) hlow

namespace Decimal

/-! ## One grid -/

section Search

variable {m : ℕ} {e : ℤ} {h : Canonical m e} {q : Fraction} {g : ℤ}

theorem not_reads_zero (hm : m ≠ 0) : Binary64.nearestTo false 0 ≠ .finite false m e h := by
  rw [Binary64.nearestTo, if_pos rfl, Binary64.zero]
  intro hzero
  rw [Binary64.finite.injEq] at hzero
  exact hm hzero.2.1.symm

/-- Zero is a point of every grid, but not one for a number that is not zero. -/
theorem pos_of_reads (hm : m ≠ 0) {n : ℕ}
    (hn : Binary64.nearestTo false (n * 10 ^ g) = .finite false m e h) : 0 < n := by
  rcases Nat.eq_zero_or_pos n with rfl | hpos
  · rw [Nat.cast_zero, zero_mul] at hn
    exact absurd hn (not_reads_zero hm)
  · exact hpos

/-- If a point of a grid is rounded to the number, one of the two points around the number is. -/
theorem onGrid_ne_none (hm : m ≠ 0) (hq : 0 < q.value)
    (hx : Binary64.nearestTo false q.value = .finite false m e h) {n : ℕ}
    (hn : Binary64.nearestTo false (n * 10 ^ g) = .finite false m e h) :
    onGrid (.finite false m e h) q g ≠ none := by
  have hunit : (0 : ℚ) < 10 ^ g := by positivity
  have hscaled : (q.scale 10 (-g)).value = q.value / 10 ^ g := by
    rw [Fraction.value_scale q (by norm_num), zpow_neg, div_eq_mul_inv]
    rfl
  have hfloor := Nat.floor_le (a := q.value / 10 ^ g) (by positivity)
  have hnext := Nat.lt_floor_add_one (q.value / 10 ^ g)
  rw [le_div_iff₀ hunit] at hfloor
  rw [div_lt_iff₀ hunit] at hnext
  have hn0 : 0 < n := pos_of_reads hm hn
  have hnq : (0 : ℚ) < n * 10 ^ g := by positivity
  simp only [onGrid, Binary64.ofDecimal_eq, Fraction.floor_eq, hscaled]
  rcases Nat.lt_or_ge ⌊q.value / 10 ^ g⌋₊ n with hlt | hge
  · have habove : ((⌊q.value / 10 ^ g⌋₊ + 1 : ℕ) : ℚ) * 10 ^ g ≤ n * 10 ^ g := by
      gcongr
      exact hlt
    have hreads := Binary64.nearestTo_between hq (by exact_mod_cast hnext.le) habove hx hn
    simp only [hreads, if_true]
    split <;> simp
  · have hbelow : (n : ℚ) * 10 ^ g ≤ ⌊q.value / 10 ^ g⌋₊ * 10 ^ g := by
      gcongr
    have hreads := Binary64.nearestTo_between hnq hbelow hfloor hn hx
    simp only [hreads, if_true]
    split <;> simp

/-- What is found on a grid is not above the next point. -/
theorem onGrid_le {x : Binary64} {c : ℕ} (hc : onGrid x q g = some c) :
    c ≤ (q.scale 10 (-g)).floor + 1 := by
  have hround : (q.scale 10 (-g)).round ≤ (q.scale 10 (-g)).floor + 1 := by
    rw [Fraction.round]
    split <;> omega
  simp only [onGrid] at hc
  split at hc
  · split at hc
    · cases hc
      exact hround
    · cases hc
      omega
  · split at hc
    · cases hc
      exact le_refl _
    · contradiction

/-! ## The search -/

/-- The search stops on the coarsest grid with a point for the number, near the number. -/
theorem search_coarsest (hm : m ≠ 0) (hq : 0 < q.value)
    (hx : Binary64.nearestTo false q.value = .finite false m e h) (k : ℕ) (g : ℤ) :
    (search (.finite false m e h) q k g).exponent ≤ g ∧
      (search (.finite false m e h) q k g).digits ≤
        (q.scale 10 (-(search (.finite false m e h) q k g).exponent)).floor + 1 ∧
      ∀ j, (search (.finite false m e h) q k g).exponent < j → j ≤ g → ∀ n : ℕ,
        Binary64.nearestTo false (n * 10 ^ j) ≠ .finite false m e h := by
  induction k generalizing g with
  | zero =>
      rw [search]
      exact ⟨le_refl _, Nat.le_succ _, fun j hlt hle => absurd hle (not_le.mpr hlt)⟩
  | succ k ih =>
      rw [search]
      split
      · next c hc =>
          exact ⟨le_refl _, onGrid_le hc, fun j hlt hle => absurd hle (not_le.mpr hlt)⟩
      · next hnone =>
          obtain ⟨hexponent, hdigits, hcoarser⟩ := ih (g - 1)
          refine ⟨by omega, hdigits, fun j hlt hle n hn => ?_⟩
          rcases hle.lt_or_eq with hbelow | rfl
          · exact hcoarser j hlt (by omega) n hn
          · exact onGrid_ne_none hm hq hx hn hnone

end Search

/-- A decimal on the coarsest grid that has a point for a double: it stands for the double, is near
it, and on no coarser grid up to the order of magnitude of the double is a point that stands for
it. -/
structure Coarsest (m : ℕ) (e : ℤ) (h : Canonical m e) (top : ℤ) (d : Decimal) : Prop where
  low : (10 : ℚ) ^ (top - 1) ≤ m * 2 ^ e
  high : (m : ℚ) * 2 ^ e ≤ 10 ^ top
  reads : Binary64.nearestTo false d.value = .finite false m e h
  exponent_le : d.exponent ≤ top
  digits_le : d.digits ≤ ⌊(m : ℚ) * 2 ^ e / 10 ^ d.exponent⌋₊ + 1
  not_coarser : ∀ g, d.exponent < g → g ≤ top → ∀ n : ℕ,
    Binary64.nearestTo false (n * 10 ^ g) ≠ .finite false m e h

theorem coarsest_shortest {m : ℕ} {e : ℤ} (h : Canonical m e) (hm : m ≠ 0) :
    Coarsest m e h (Binary64.size m e).magnitude (shortest m e h) := by
  have hmq : (0 : ℚ) < m := by exact_mod_cast Nat.pos_of_ne_zero hm
  have hnum : 0 < (Binary64.size m e).num :=
    Nat.mul_pos (Nat.pos_of_ne_zero hm) (Nat.pow_pos (by norm_num))
  have hden : 0 < (Binary64.size m e).den := Fraction.den_scale_pos (by norm_num) (by norm_num) e
  obtain ⟨hlow, hhigh⟩ := Fraction.magnitude_bounds hnum hden
  have hx : Binary64.nearestTo false (Binary64.size m e).value = .finite false m e h := by
    rw [size_value]
    exact Binary64.nearestTo_of_canonical false h
  have hq : 0 < (Binary64.size m e).value := by
    rw [size_value]
    positivity
  obtain ⟨k, hk⟩ : ∃ k, shortest m e h =
      search (.finite false m e h) (Binary64.size m e) k (Binary64.size m e).magnitude :=
    ⟨_, if_neg hm⟩
  obtain ⟨hexponent, hdigits, hcoarser⟩ := search_coarsest hm hq hx k (Binary64.size m e).magnitude
  rw [← hk] at hexponent hdigits hcoarser
  rw [Fraction.floor_eq, Fraction.value_scale _ (by norm_num), zpow_neg, ← div_eq_mul_inv,
    size_value] at hdigits
  rw [size_value] at hlow hhigh
  exact ⟨hlow, hhigh, shortest_reads h, hexponent, hdigits, hcoarser⟩

namespace Coarsest

variable {m : ℕ} {e : ℤ} {h : Canonical m e} {top : ℤ} {d : Decimal}

theorem digits_pos (hd : Coarsest m e h top d) (hm : m ≠ 0) : 0 < d.digits :=
  pos_of_reads hm hd.reads

/-- On the grid of the order of magnitude there are at most the points one and two. -/
theorem digits_le_two (hd : Coarsest m e h top d) (hexponent : d.exponent = top) :
    d.digits ≤ 2 := by
  have hone : (m : ℚ) * 2 ^ e / 10 ^ d.exponent ≤ (1 : ℕ) := by
    rw [hexponent, div_le_iff₀ (by positivity), Nat.cast_one, one_mul]
    exact hd.high
  have := Nat.floor_le_of_le hone
  have := hd.digits_le
  omega

/-- **The shortest decimal does not end in a zero.** -/
theorem digits_mod_ten (hd : Coarsest m e h top d) (hm : m ≠ 0) : d.digits % 10 ≠ 0 := by
  intro hmod
  have hpos := hd.digits_pos hm
  rcases hd.exponent_le.lt_or_eq with hlt | heq
  -- without the zero it is a point of a coarser grid
  · refine hd.not_coarser (d.exponent + 1) (by omega) (by omega) (d.digits / 10) ?_
    have hdigits : (d.digits : ℚ) = (d.digits / 10 : ℕ) * 10 := by
      exact_mod_cast (Nat.div_mul_cancel (Nat.dvd_of_mod_eq_zero hmod)).symm
    rw [zpow_add₀ (by norm_num), zpow_one, mul_comm ((10 : ℚ) ^ d.exponent), ← mul_assoc, ← hdigits]
    exact hd.reads
  · have := hd.digits_le_two heq
    omega

/-- A decimal of few digits that is rounded to the double leaves the grid coarse. -/
theorem le_exponent (hd : Coarsest m e h top d) (hm : m ≠ 0) {n D : ℕ} {k : ℤ} (hD : 0 < D)
    (hn : n < 10 ^ D) (hreads : Binary64.nearestTo false (n * 10 ^ k) = .finite false m e h) :
    top - D ≤ d.exponent := by
  by_contra hlt
  rw [not_le] at hlt
  rcases le_or_gt (top - D) k with hle | hgt
  · obtain ⟨n', hn'⟩ := on_finer_grid ⟨n, rfl⟩ hle
    rw [hn'] at hreads
    exact hd.not_coarser (top - D) hlt (by omega) n' hreads
  -- a power of ten lies between it and the number
  · have hn0 : 0 < n := pos_of_reads hm hreads
    have hbelow : (n : ℚ) * 10 ^ k ≤ 10 ^ (top - 1) := by
      calc (n : ℚ) * 10 ^ k ≤ 10 ^ (D : ℤ) * 10 ^ k := by
            gcongr
            rw [zpow_natCast]
            exact_mod_cast hn.le
        _ = 10 ^ (D + k) := (zpow_add₀ (by norm_num) _ _).symm
        _ ≤ 10 ^ (top - 1) := zpow_le_zpow_right₀ (by norm_num) (by omega)
    have hpower := Binary64.nearestTo_between (by positivity) hbelow hd.low hreads
      (Binary64.nearestTo_of_canonical false h)
    have hgrid : ∃ n' : ℕ, (10 : ℚ) ^ (top - 1) = n' * 10 ^ (top - D) :=
      on_finer_grid ⟨1, by simp⟩ (show top - D ≤ top - 1 by omega)
    obtain ⟨n', hn'⟩ := hgrid
    rw [hn'] at hpower
    exact hd.not_coarser (top - D) hlt (by omega) n' hpower

/-- **No decimal with fewer digits is rounded to the double.** -/
theorem digits_lt (hd : Coarsest m e h top d) (hm : m ≠ 0) {n D : ℕ} {k : ℤ} (hn : n < 10 ^ D)
    (hreads : Binary64.nearestTo false (n * 10 ^ k) = .finite false m e h) : d.digits < 10 ^ D := by
  have hD : 0 < D := by
    have hn0 := pos_of_reads hm hreads
    rcases Nat.eq_zero_or_pos D with rfl | hpos
    · omega
    · exact hpos
  rcases hd.exponent_le.lt_or_eq with hlt | heq
  · have hexponent := hd.le_exponent hm hD hn hreads
    -- the number is not the power of ten, which is a point of a coarser grid
    have hne : (m : ℚ) * 2 ^ e ≠ 10 ^ top := by
      intro heq
      have hself := Binary64.nearestTo_of_canonical false h
      rw [heq] at hself
      refine hd.not_coarser top hlt (le_refl _) 1 ?_
      rwa [Nat.cast_one, one_mul]
    have hbelow : (m : ℚ) * 2 ^ e / 10 ^ d.exponent < (10 ^ D : ℕ) := by
      rw [div_lt_iff₀ (by positivity)]
      calc (m : ℚ) * 2 ^ e < 10 ^ top := lt_of_le_of_ne hd.high hne
        _ ≤ 10 ^ (D + d.exponent) := zpow_le_zpow_right₀ (by norm_num) (by omega)
        _ = 10 ^ (D : ℤ) * 10 ^ d.exponent := zpow_add₀ (by norm_num) _ _
        _ = (10 ^ D : ℕ) * 10 ^ d.exponent := by rw [zpow_natCast, Nat.cast_pow, Nat.cast_ofNat]
    have hfloor := (Nat.floor_lt (by positivity)).mpr hbelow
    have hle : d.digits ≤ 10 ^ D := by
      have := hd.digits_le
      omega
    refine lt_of_le_of_ne hle ?_
    intro hpower
    refine hd.digits_mod_ten hm ?_
    rw [hpower]
    exact Nat.mod_eq_zero_of_dvd (dvd_pow_self 10 hD.ne')
  · have := hd.digits_le_two heq
    have := Nat.pow_le_pow_right (n := 10) (by norm_num) hD
    omega

end Coarsest

end Decimal

end MiniLisp
