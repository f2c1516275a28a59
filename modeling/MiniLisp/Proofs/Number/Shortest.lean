import MiniLisp.Number.Shortest
import MiniLisp.Proofs.Number.Nearest

set_option autoImplicit false

/-! # The shortest decimal reads back

`Decimal.shortest` walks down the grids of the powers of ten. Whatever grid it stops on, the
decimal it gives is rounded to the number that it was made from: on every grid but the last
because that was asked for, and on the last because the number itself is a point of it.
-/

namespace MiniLisp.Decimal

/-- The number that a decimal stands for. -/
def value (d : Decimal) : ℚ := d.digits * 10 ^ d.exponent

theorem onGrid_reads {x : Binary64} {q : Fraction} {g : ℤ} {c : ℕ} (h : onGrid x q g = some c) :
    Binary64.ofDecimal false c g = x := by
  simp only [onGrid] at h
  split at h
  · next hfloor =>
      split at h
      · next hnext =>
          obtain rfl := Option.some.inj h
          rw [Fraction.round]
          split
          · exact hfloor
          · exact hnext
      · obtain rfl := Option.some.inj h
        exact hfloor
  · split at h
    · next hnext =>
        obtain rfl := Option.some.inj h
        exact hnext
    · contradiction

/-- A search reads back if the number is on the last grid that it gets to. -/
theorem search_reads {x : Binary64} {q : Fraction} (hx : Binary64.nearestTo false q.value = x)
    {k : ℕ} {g : ℤ} (hgrid : ∃ n : ℕ, q.value = n * 10 ^ (g - k)) :
    Binary64.nearestTo false (search x q k g).value = x := by
  induction k generalizing g with
  | zero =>
      -- on the last grid the number is a point, so rounding down does not change it
      obtain ⟨n, hn⟩ := hgrid
      have hfloor : (q.scale 10 (-g)).floor = n := by
        rw [Fraction.floor_eq, Fraction.value_scale q (by norm_num), hn, mul_assoc]
        push_cast
        rw [← zpow_add₀ (by norm_num)]
        simp
      have hvalue : (search x q 0 g).value = q.value := by
        rw [search, value, hfloor, hn, Nat.cast_zero, sub_zero]
      rw [hvalue, hx]
  | succ k ih =>
      rw [search]
      split
      · next c hc =>
          rw [value, ← Binary64.ofDecimal_eq]
          exact onGrid_reads hc
      · apply ih
        obtain ⟨n, hn⟩ := hgrid
        refine ⟨n, ?_⟩
        rw [hn]
        congr 2
        omega

theorem size_value (m : ℕ) (e : ℤ) : (Binary64.size m e).value = m * 2 ^ e := by
  rw [Binary64.size, Fraction.value_scale _ (by norm_num)]
  simp [Fraction.value]

/-- A double is on the grid of its own exponent, and whole if the exponent is not negative. -/
theorem on_last_grid (m : ℕ) (e : ℤ) :
    ∃ n : ℕ, (m : ℚ) * 2 ^ e = n * 10 ^ (if e < 0 then e else 0) := by
  split
  · next hneg =>
      obtain ⟨k, hk⟩ := Int.eq_ofNat_of_zero_le (show 0 ≤ -e by omega)
      obtain rfl : e = -k := by omega
      -- m * 2 ^ (-k) = m * 5 ^ k * 10 ^ (-k)
      refine ⟨m * 5 ^ k, ?_⟩
      have hten : (10 : ℚ) ^ k = 2 ^ k * 5 ^ k := by
        rw [← mul_pow]
        norm_num
      rw [zpow_neg, zpow_neg, zpow_natCast, zpow_natCast, hten]
      push_cast
      field_simp
  · next hneg =>
      obtain ⟨k, rfl⟩ := Int.eq_ofNat_of_zero_le (show 0 ≤ e by omega)
      exact ⟨m * 2 ^ k, by simp⟩

/-- What is on a grid is on every finer one. -/
theorem on_finer_grid {x : ℚ} {f g : ℤ} (h : ∃ n : ℕ, x = n * 10 ^ g) (hfg : f ≤ g) :
    ∃ n : ℕ, x = n * 10 ^ f := by
  obtain ⟨n, rfl⟩ := h
  obtain ⟨k, hk⟩ := Int.eq_ofNat_of_zero_le (show 0 ≤ g - f by omega)
  refine ⟨n * 10 ^ k, ?_⟩
  obtain rfl : g = k + f := by omega
  rw [zpow_add₀ (by norm_num), zpow_natCast]
  push_cast
  ring

/-- **The shortest decimal of a number is rounded to the number.** -/
theorem shortest_reads {m : ℕ} {e : ℤ} (h : Canonical m e) :
    Binary64.nearestTo false (shortest m e h).value = .finite false m e h := by
  unfold shortest
  split
  · next hm =>
      subst hm
      rw [value, Binary64.nearestTo, if_pos (by simp), Binary64.zero_eq_of_canonical false h]
  · apply search_reads
    · rw [size_value]
      exact Binary64.nearestTo_of_canonical false h
    -- the search may also start below the last grid, and then it stops where it starts
    · rw [size_value]
      apply on_finer_grid (on_last_grid m e)
      omega

end MiniLisp.Decimal
