import MiniLisp.Proofs.Number.Equality
import MiniLisp.Proofs.Number.Shortest

set_option autoImplicit false

/-! # Sums of doubles

What the sum of two doubles is, without their significands and exponents (`IsSum`): the exact sum
of the two rational numbers, rounded to the closest double, or one of the special cases. Addition
gives this sum and no other (`isSum_iff`), because both exact numbers are whole multiples of the
power of two that their sum is counted in.

An exact sum that is not zero is at least the least double in size, since all doubles are multiples
of that one, and so it is not rounded to zero. A sum that is exactly zero is `+0` unless both
numbers are `-0`. Hence nothing but `-0` and `-0` has the sum `-0` (`IsSum.eq_zero`), and a total
that starts from another number never becomes `-0` (`IsTotal.ne_zero`).
-/

namespace MiniLisp.Binary64

/-- Whether a double is the sum of two others by the rules of IEEE 754: the closest one to the exact
sum, of two equally close the one with the even significand. -/
inductive IsSum : Binary64 → Binary64 → Binary64 → Prop
  /-- A NaN makes the sum one. -/
  | nanLeft (y : Binary64) : IsSum .nan y .nan
  | nanRight (x : Binary64) : IsSum x .nan .nan
  | infinities (s : Bool) : IsSum (.infinite s) (.infinite s) (.infinite s)
  /-- Infinities of different sign have no sum. -/
  | opposites (s : Bool) : IsSum (.infinite s) (.infinite !s) .nan
  | infiniteLeft (s : Bool) {y : Binary64} {w : ℚ} (hy : value? y = some w) :
      IsSum (.infinite s) y (.infinite s)
  | infiniteRight (s : Bool) {x : Binary64} {v : ℚ} (hx : value? x = some v) :
      IsSum x (.infinite s) (.infinite s)
  /-- The exact sum is rounded, with its own sign. -/
  | rounded {x y z : Binary64} {v w : ℚ} (hx : value? x = some v) (hy : value? y = some w)
      (hsum : v + w ≠ 0) (hz : Rounded (decide (v + w < 0)) (v + w) z) : IsSum x y z
  /-- An exact sum of zero is `-0` for two of these, and else `+0`. -/
  | cancelled {x y : Binary64} {v w : ℚ} (hx : value? x = some v) (hy : value? y = some w)
      (hsum : v + w = 0) : IsSum x y (zero (decide (x = zero true ∧ y = zero true)))

/-- Whether a double is the total of others added to a first one, from left to right. -/
inductive IsTotal : Binary64 → List Binary64 → Binary64 → Prop
  | nil (a : Binary64) : IsTotal a [] a
  | cons {a b x z : Binary64} {xs : List Binary64} (hsum : IsSum a x b) (hrest : IsTotal b xs z) :
      IsTotal a (x :: xs) z

/-! ## Exact sums -/

/-- A double counted in units of a smaller exponent. -/
theorem signed_units (s : Bool) (m : ℕ) {e g : ℤ} (h : g ≤ e) :
    (signed s (m * Nat.pow 2 (e - g).toNat) : ℚ) * 2 ^ g = signed s m * 2 ^ e := by
  obtain ⟨k, hk⟩ := Int.eq_ofNat_of_zero_le (show 0 ≤ e - g by omega)
  obtain rfl : e = k + g := by omega
  rw [signed_mul, signed_mul, hk, in_units]
  rfl

/-- Every double is a multiple of the least one. -/
theorem exists_multiple {x : Binary64} {v : ℚ} (h : value? x = some v) :
    ∃ k : ℤ, v = k * 2 ^ (-1074 : ℤ) := by
  cases x with
  | nan => contradiction
  | infinite s => contradiction
  | finite s m e hcanonical =>
      obtain rfl := Option.some.inj h
      exact ⟨_, (signed_units s m hcanonical.2.1).symm⟩

/-- An exact sum that is not zero is not smaller than the least double. -/
theorem least_le_abs_add {x y : Binary64} {v w : ℚ} (hx : value? x = some v)
    (hy : value? y = some w) (hsum : v + w ≠ 0) : 2 ^ (-1074 : ℤ) ≤ |v + w| := by
  obtain ⟨k, rfl⟩ := exists_multiple hx
  obtain ⟨l, rfl⟩ := exists_multiple hy
  have hunit : (0 : ℚ) < 2 ^ (-1074 : ℤ) := by positivity
  rw [← add_mul, ← Int.cast_add] at hsum ⊢
  have hkl : k + l ≠ 0 := by
    intro h
    rw [h] at hsum
    simp at hsum
  have hone : (1 : ℚ) ≤ |((k + l : ℤ) : ℚ)| := by exact_mod_cast Int.one_le_abs hkl
  rw [abs_mul, abs_of_pos hunit]
  exact le_mul_of_one_le_left hunit.le hone

theorem signed_natAbs (k : ℤ) : signed (decide (k < 0)) k.natAbs = k := by
  by_cases hk : k < 0
  · rw [signed, if_pos (decide_eq_true hk)]
    omega
  · rw [signed, if_neg (by simpa using hk)]
    omega

/-- A whole number of units, with its sign, is rounded as the rational number that it is. -/
theorem rounded_nearest (k g : ℤ) :
    Rounded (decide ((k : ℚ) * 2 ^ g < 0)) (k * 2 ^ g)
      (nearest (decide (k < 0)) (size k.natAbs g)) := by
  have hunit : (0 : ℚ) < 2 ^ g := by positivity
  have hnegative : decide ((k : ℚ) * 2 ^ g < 0) = decide (k < 0) := by
    rw [decide_eq_decide, mul_neg_iff]
    constructor
    · rintro (⟨-, h⟩ | ⟨h, -⟩)
      · exact absurd hunit h.not_gt
      · exact_mod_cast h
    · intro h
      exact Or.inr ⟨by exact_mod_cast h, hunit⟩
  have hvalue : (k : ℚ) * 2 ^ g = withSignOf (decide (k < 0)) (k.natAbs * 2 ^ g) := by
    rw [← signed_mul, signed_natAbs]
  have hround := rounded_nearestTo (decide (k < 0)) (x := k.natAbs * 2 ^ g) (by positivity)
  have hden : 0 < (size k.natAbs g).den := Fraction.den_scale_pos (by norm_num) (by norm_num) g
  rwa [hnegative, nearest_eq _ hden, Decimal.size_value, hvalue]

/-! ## Addition -/

/-- Two doubles with minus signs cancel only if both are zero. -/
theorem and_signs_of_cancelled {s t : Bool} {m n : ℕ} {e f : ℤ} (hx : Canonical m e)
    (hy : Canonical n f) (hsum : (signed s m : ℚ) * 2 ^ e + signed t n * 2 ^ f = 0) :
    (s && t) = decide (finite s m e hx = zero true ∧ finite t n f hy = zero true) := by
  rw [Bool.eq_iff_iff, Bool.and_eq_true, decide_eq_true_iff]
  constructor
  · rintro ⟨rfl, rfl⟩
    have hm : (0 : ℚ) ≤ m * 2 ^ e := by positivity
    have hn : (0 : ℚ) ≤ n * 2 ^ f := by positivity
    rw [signed_mul, signed_mul, withSignOf, withSignOf, if_pos rfl, if_pos rfl] at hsum
    obtain rfl : m = 0 := eq_zero_of_size (e := e) (by linarith)
    obtain rfl : n = 0 := eq_zero_of_size (e := f) (by linarith)
    exact ⟨(zero_eq_of_canonical true hx).symm, (zero_eq_of_canonical true hy).symm⟩
  · rintro ⟨hx, hy⟩
    rw [zero, finite.injEq] at hx hy
    exact ⟨hx.1, hy.1⟩

/-- Finite doubles are added exactly, in units of the lower exponent, and then rounded. -/
theorem add_of_values {x y : Binary64} {v w : ℚ} (hx : value? x = some v)
    (hy : value? y = some w) :
    (v + w = 0 → x + y = zero (decide (x = zero true ∧ y = zero true))) ∧
      (v + w ≠ 0 → Rounded (decide (v + w < 0)) (v + w) (x + y)) := by
  cases x with
  | nan => contradiction
  | infinite s => contradiction
  | finite s m e hm =>
      cases y with
      | nan => contradiction
      | infinite t => contradiction
      | finite t n f hn =>
          obtain rfl := Option.some.inj hx
          obtain rfl := Option.some.inj hy
          let g := if e ≤ f then e else f
          let sum : ℤ :=
            signed s (m * Nat.pow 2 (e - g).toNat) + signed t (n * Nat.pow 2 (f - g).toNat)
          have hadd : finite s m e hm + finite t n f hn =
              if sum = 0 then zero (s && t)
              else nearest (decide (sum < 0)) (size sum.natAbs g) := rfl
          have hg : g ≤ e ∧ g ≤ f := by
            simp only [g]
            split <;> omega
          have hexact : (signed s m : ℚ) * 2 ^ e + signed t n * 2 ^ f = sum * 2 ^ g := by
            rw [Int.cast_add, add_mul, signed_units s m hg.1, signed_units t n hg.2]
          have hzero : (signed s m : ℚ) * 2 ^ e + signed t n * 2 ^ f = 0 ↔ sum = 0 := by
            have hunit : (2 : ℚ) ^ g ≠ 0 := by positivity
            rw [hexact, mul_eq_zero_iff_right hunit, Int.cast_eq_zero]
          refine ⟨fun hsum => ?_, fun hsum => ?_⟩
          · rw [hadd, if_pos (hzero.mp hsum), and_signs_of_cancelled hm hn hsum]
          · rw [hadd, if_neg (fun h => hsum (hzero.mpr h)), hexact]
            exact rounded_nearest sum g

theorem isSum_add (x y : Binary64) : IsSum x y (x + y) := by
  cases x with
  | nan => exact .nanLeft y
  | infinite s =>
      cases y with
      | nan => exact .nanRight _
      | infinite t =>
          by_cases hst : s = t
          · subst hst
            have hadd : infinite s + infinite s = infinite s := if_pos rfl
            rw [hadd]
            exact .infinities s
          · have hadd : infinite s + infinite t = nan := if_neg hst
            obtain rfl : t = !s := Bool.eq_not.mpr (Ne.symm hst)
            rw [hadd]
            exact .opposites s
      | finite t n f hy => exact .infiniteLeft s rfl
  | finite s m e hx =>
      cases y with
      | nan => exact .nanRight _
      | infinite t => exact .infiniteRight t rfl
      | finite t n f hy =>
          obtain ⟨hcancelled, hrounded⟩ :=
            add_of_values (x := finite s m e hx) (y := finite t n f hy) rfl rfl
          by_cases hsum : (signed s m : ℚ) * 2 ^ e + signed t n * 2 ^ f = 0
          · rw [hcancelled hsum]
            exact .cancelled rfl rfl hsum
          · exact .rounded rfl rfl hsum (hrounded hsum)

/-- A number with its sign told apart. -/
theorem withSignOf_abs (r : ℚ) : withSignOf (decide (r < 0)) |r| = r := by
  by_cases hr : r < 0
  · rw [withSignOf, if_pos (decide_eq_true hr), abs_of_neg hr, neg_neg]
  · rw [withSignOf, if_neg (by simpa using hr), abs_of_nonneg (not_lt.mp hr)]

/-- **Addition gives the sum of two doubles**, and they have no other sum. -/
theorem isSum_iff {x y z : Binary64} : IsSum x y z ↔ x + y = z := by
  constructor
  · intro h
    cases h with
    | nanLeft y => rfl
    | nanRight x => cases x <;> rfl
    | infinities s => exact if_pos rfl
    | opposites s => exact if_neg (by simp)
    | infiniteLeft s hy =>
        obtain ⟨t, n, f, hn, rfl⟩ := finite_of_value? hy
        rfl
    | infiniteRight s hx =>
        obtain ⟨t, n, f, hn, rfl⟩ := finite_of_value? hx
        rfl
    | @rounded x y z v w hx hy hsum hz =>
        have hadd := (add_of_values hx hy).2 hsum
        have hsign := withSignOf_abs (v + w)
        exact Rounded.unique (x := |v + w|) (by rwa [hsign]) (by rwa [hsign])
    | cancelled hx hy hsum => exact (add_of_values hx hy).1 hsum
  · rintro rfl
    exact isSum_add x y

/-- A total is what adding from left to right comes to. -/
theorem isTotal_iff {a z : Binary64} {xs : List Binary64} :
    IsTotal a xs z ↔ xs.foldl (· + ·) a = z := by
  constructor
  · intro h
    induction h with
    | nil a => rfl
    | cons hsum _ ih => rw [List.foldl_cons, isSum_iff.mp hsum, ih]
  · rintro rfl
    induction xs generalizing a with
    | nil => exact .nil a
    | cons x xs ih => exact .cons (isSum_add a x) ih

/-! ## The sign of zero -/

/-- A number that is not smaller than the least double is not rounded to zero. -/
theorem Rounded.ne_zero {negative : Bool} {r : ℚ} {z : Binary64} (h : Rounded negative r z)
    (hr : 2 ^ (-1074 : ℤ) ≤ |r|) (s : Bool) : z ≠ Binary64.zero s := by
  rintro rfl
  have hleast : (0 : ℚ) < 2 ^ (-1074 : ℤ) := by positivity
  by_cases hlarge : overflow ≤ |r|
  · exact absurd (h.infinite hlarge) nofun
  · obtain ⟨m, e, hm, hzero, hclosest⟩ := h.finite (not_le.mp hlarge)
    obtain ⟨rfl, rfl, rfl⟩ := finite.inj hzero
    -- the least double with the sign of the number is closer to it than zero
    have hcloser := (hclosest (.finite (decide (r < 0)) 1 (-1074) (by decide)) _ rfl).1
    have hdistance : |(signed (decide (r < 0)) 1 : ℚ) * 2 ^ (-1074 : ℤ) - r| =
        |r| - 2 ^ (-1074 : ℤ) := by
      have hsigns := abs_withSignOf_sub (decide (r < 0)) (2 ^ (-1074 : ℤ)) |r|
      rw [withSignOf_abs] at hsigns
      rw [signed_mul, Nat.cast_one, one_mul, hsigns, abs_sub_comm, abs_of_nonneg (by linarith)]
    have horigin : |(signed s 0 : ℚ) * 2 ^ (-1074 : ℤ) - r| = |r| := by
      cases s <;> simp [signed]
    linarith

/-- Nothing but `-0` and `-0` has the sum `-0`. -/
theorem IsSum.eq_zero {x y z : Binary64} (h : IsSum x y z) (hz : z = zero true) :
    x = zero true ∧ y = zero true := by
  cases h with
  | nanLeft y => cases hz
  | nanRight x => cases hz
  | infinities s => cases hz
  | opposites s => cases hz
  | infiniteLeft s hy => cases hz
  | infiniteRight s hx => cases hz
  | rounded hx hy hsum hround =>
      exact absurd hz (hround.ne_zero (least_le_abs_add hx hy hsum) true)
  | cancelled hx hy hsum => exact of_decide_eq_true (finite.inj hz).1

/-- A total that starts from another number than `-0` is never `-0`. -/
theorem IsTotal.ne_zero {a z : Binary64} {xs : List Binary64} (h : IsTotal a xs z)
    (ha : a ≠ zero true) : z ≠ zero true := by
  induction h with
  | nil a => exact ha
  | cons hsum _ ih => exact ih fun hb => ha (hsum.eq_zero hb).1

end MiniLisp.Binary64
