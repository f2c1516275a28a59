import MiniLisp.Proofs.Number.Closest

set_option autoImplicit false

/-! # Equality of numbers

Numbers are equal if they are one and the same double, or both zero (`alike_iff`). This is equality
by the rules of IEEE 754 but for NaN, which is equal to itself (`alike_iff_equals`): two doubles
with the same value that is not zero are one double, since both are what the value is rounded to.
-/

namespace MiniLisp.Binary64

/-- Equality by the rules of IEEE 754. A NaN is equal to nothing. -/
inductive Equals : Binary64 → Binary64 → Prop
  | infinite (s : Bool) : Equals (.infinite s) (.infinite s)
  | finite {x y : Binary64} {v : ℚ} (hx : value? x = some v) (hy : value? y = some v) : Equals x y

theorem eq_zero_of_size {m : ℕ} {e : ℤ} (h : (m : ℚ) * 2 ^ e = 0) : m = 0 := by
  rcases mul_eq_zero.mp h with h | h
  · exact_mod_cast h
  · exact absurd h (by positivity)

theorem finite_of_value? {x : Binary64} {v : ℚ} (h : value? x = some v) :
    ∃ s m e hm, x = finite s m e hm := by
  cases x with
  | nan => contradiction
  | infinite s => contradiction
  | finite s m e hm => exact ⟨s, m, e, hm, rfl⟩

/-- What a value is rounded to is the one double that has it. -/
theorem nearestTo_of_value? {x : Binary64} {v : ℚ} (h : value? x = some v) (hv : v ≠ 0) :
    nearestTo (decide (v < 0)) |v| = x := by
  obtain ⟨s, m, e, hm, rfl⟩ := finite_of_value? h
  obtain rfl := Option.some.inj h
  have hsize : (0 : ℚ) ≤ m * 2 ^ e := by positivity
  rw [signed_mul] at hv ⊢
  rw [abs_withSignOf s hsize]
  have hsign : decide (withSignOf s ((m : ℚ) * 2 ^ e) < 0) = s := by
    cases s with
    | false => exact decide_eq_false (not_lt.mpr hsize)
    | true =>
        rw [withSignOf, if_pos rfl] at hv ⊢
        exact decide_eq_true (lt_of_le_of_ne (neg_nonpos.mpr hsize) hv)
  rw [hsign, nearestTo_of_canonical s hm]

theorem isZero_iff {x : Binary64} : x.isZero = true ↔ value? x = some 0 := by
  cases x with
  | nan => exact iff_of_false nofun nofun
  | infinite s => exact iff_of_false nofun nofun
  | finite s m e hm =>
      rw [isZero, beq_iff_eq, value?, Option.some.injEq, signed_mul]
      constructor
      · rintro rfl
        cases s <;> simp [withSignOf]
      · intro h
        apply eq_zero_of_size (e := e)
        cases s with
        | false => exact h
        | true => exact neg_eq_zero.mp h

theorem isZero_unsignedZero (x : Binary64) : x.unsignedZero.isZero = x.isZero := by
  rw [unsignedZero]
  split
  · next h => exact h.symm
  · rfl

/-- **Equal numbers are one double or both zero.** -/
theorem alike_iff {x y : Binary64} :
    x.alike y = true ↔ x = y ∨ x.isZero = true ∧ y.isZero = true := by
  rw [alike, decide_eq_true_iff]
  by_cases h : x.isZero = y.isZero
  · rw [unsignedZero, unsignedZero, ← h]
    by_cases hx : x.isZero <;> simp [hx]
  · refine iff_of_false ?_ ?_
    · intro heq
      rw [← isZero_unsignedZero x, heq, isZero_unsignedZero] at h
      contradiction
    · rintro (rfl | ⟨hx, hy⟩)
      · exact h rfl
      · exact h (hx.trans hy.symm)

/-- **Numbers are compared by value, except that NaN is equal to itself.** -/
theorem alike_iff_equals {x y : Binary64} :
    x.alike y = true ↔ x = nan ∧ y = nan ∨ Equals x y := by
  rw [alike_iff, isZero_iff, isZero_iff]
  constructor
  · rintro (rfl | ⟨hx, hy⟩)
    · cases x with
      | nan => exact Or.inl ⟨rfl, rfl⟩
      | infinite s => exact Or.inr (.infinite s)
      | finite s m e hm => exact Or.inr (.finite rfl rfl)
    · exact Or.inr (.finite hx hy)
  · rintro (⟨rfl, rfl⟩ | h)
    · exact Or.inl rfl
    · cases h with
      | infinite s => exact Or.inl rfl
      | @finite x y v hx hy =>
          by_cases hv : v = 0
          · subst hv
            exact Or.inr ⟨hx, hy⟩
          · left
            rw [← nearestTo_of_value? hx hv, nearestTo_of_value? hy hv]

end MiniLisp.Binary64
