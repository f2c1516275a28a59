import MiniLisp.Proofs.Number.Fewest
import MiniLisp.Proofs.Number.Notation

set_option autoImplicit false

/-! # Numbers are shown in canonical form

A finite number is shown in positional notation without superfluous zeros (`Decimal.Tidy`), with as
few digits as any text that is read as the number (`Binary64.display_canonical`). Both rest on the
shortest decimal: it does not end in a zero, so positional notation has zeros at its ends only where
the point needs them, and no decimal with fewer digits is rounded to the number.

Digits that are zeros at either end of a mantissa are not significant. A text of `n` significant
digits stands for a number below `10 ^ n` times a power of ten, and so it is compared with the
shortest decimal.
-/

namespace MiniLisp

/-! ## Digits -/

theorem digitChar_ne_zero : ∀ n < 10, n ≠ 0 → Nat.digitChar n ≠ '0' := by
  decide

theorem head?_toDigits {n : ℕ} (hn : n ≠ 0) : (Nat.toDigits 10 n).head? ≠ some '0' := by
  induction n using Nat.strong_induction_on with
  | _ n ih =>
      rw [Nat.toDigits_eq_if (by decide)]
      split
      · next hlt =>
          rw [List.head?_cons, Ne, Option.some.injEq]
          exact digitChar_ne_zero n hlt hn
      · next hge =>
          rw [List.head?_append_of_ne_nil _ Nat.toDigits_ne_nil]
          exact ih (n / 10) (by omega) (by omega)

theorem getLast?_toDigits {n : ℕ} (hn : n % 10 ≠ 0) :
    (Nat.toDigits 10 n).getLast? ≠ some '0' := by
  have hlast := digitChar_ne_zero (n % 10) (Nat.mod_lt n (by decide)) hn
  rw [Nat.toDigits_eq_if (by decide)]
  split
  · next hlt =>
      rw [Nat.mod_eq_of_lt hlt] at hlast
      rw [List.getLast?_singleton, Ne, Option.some.injEq]
      exact hlast
  · rw [List.getLast?_concat, Ne, Option.some.injEq]
    exact hlast

namespace Numeral

theorem digitsValue_cons (c : Char) (ds : Text) :
    digitsValue (c :: ds) = (c.toNat - 48) * 10 ^ ds.length + digitsValue ds := by
  rw [digitsValue, Nat.ofDigitChars_cons, Nat.ofDigitChars_eq_ofDigitChars_zero, Nat.mul_zero,
    Nat.zero_add, Nat.mul_comm]
  rfl

theorem digitsValue_lt {ds : Text} (h : ∀ c ∈ ds, c.isDigit) : digitsValue ds < 10 ^ ds.length := by
  induction ds with
  | nil => decide
  | cons c ds ih =>
      have hc := toNat_of_isDigit (h c List.mem_cons_self)
      have hrest := ih (fun d hd => h d (List.mem_cons_of_mem c hd))
      rw [digitsValue_cons, List.length_cons, Nat.pow_succ]
      have hdigit : (c.toNat - 48) * 10 ^ ds.length ≤ 9 * 10 ^ ds.length :=
        Nat.mul_le_mul_right _ (by omega)
      omega

/-! ## Significant digits -/

/-- The digits of a text before an exponent. -/
def mantissaDigits (t : Text) : Text :=
  (t.takeWhile fun c => c ≠ 'e' ∧ c ≠ 'E').filter Char.isDigit

/-- The digits of a text before an exponent, without zeros at either end. -/
def significant (t : Text) : Text :=
  Text.stripBy (· = '0') (mantissaDigits t)

/-- Of a numeral between blanks, these are the digits before and behind the point. -/
theorem mantissaDigits_eq {before s m x after w f : Text} {negative : Bool} {e : ℤ}
    (hbefore : ∀ c ∈ before, isBlank c) (hs : Sign s negative) (hm : Mantissa m w f)
    (hx : Exponent x e) (hafter : ∀ c ∈ after, isBlank c) :
    mantissaDigits (before ++ (s ++ (m ++ x)) ++ after) = w ++ f := by
  have hblank : ∀ {u : Text}, (∀ c ∈ u, isBlank c) →
      (∀ c ∈ u, c ≠ 'e' ∧ c ≠ 'E') ∧ u.filter Char.isDigit = [] := by
    intro u hu
    constructor
    · intro c hc
      constructor <;> rintro rfl <;> exact absurd (hu _ hc) (by decide)
    · rw [List.filter_eq_nil_iff]
      intro c hc hdigit
      have := isBlank_bounds (hu c hc)
      have := toNat_of_isDigit hdigit
      omega
  have hsign : (∀ c ∈ s, c ≠ 'e' ∧ c ≠ 'E') ∧ s.filter Char.isDigit = [] := by
    cases hs <;> simp
  have hmantissa : (∀ c ∈ m, c ≠ 'e' ∧ c ≠ 'E') ∧ m.filter Char.isDigit = w ++ f := by
    constructor
    · intro c hc
      constructor
      · rintro rfl
        exact absurd (hm.mem hc) (by decide)
      · rintro rfl
        exact absurd (hm.mem hc) (by decide)
    · cases hm with
      | whole hw hne => rw [List.filter_eq_self.mpr hw, List.append_nil]
      | pointed hw hf hne =>
          rw [List.filter_append, List.filter_cons_of_neg (by decide), List.filter_eq_self.mpr hw,
            List.filter_eq_self.mpr hf]
  -- an exponent ends the digits; without one, only blanks follow
  have hrest : ((x ++ after).takeWhile fun c => c ≠ 'e' ∧ c ≠ 'E').filter Char.isDigit = [] := by
    cases hx with
    | absent =>
        rw [List.nil_append, List.takeWhile_eq_self_iff.mpr]
        · exact (hblank hafter).2
        · intro c hc
          exact decide_eq_true ((hblank hafter).1 c hc)
    | present hc ht =>
        rw [List.cons_append, List.takeWhile_cons_of_neg]
        · rfl
        · rcases hc with rfl | rfl <;> decide
  have hsplit : before ++ (s ++ (m ++ x)) ++ after = (before ++ s ++ m) ++ (x ++ after) := by
    simp only [List.append_assoc]
  rw [mantissaDigits, hsplit, List.takeWhile_append_of_pos]
  · rw [List.filter_append, List.filter_append, List.filter_append, (hblank hbefore).2, hsign.2,
      hmantissa.2, hrest, List.append_nil, List.append_nil, List.nil_append]
  · intro c hc
    apply decide_eq_true
    rcases List.mem_append.mp hc with hc | hc
    · rcases List.mem_append.mp hc with hc | hc
      · exact (hblank hbefore).1 c hc
      · exact hsign.1 c hc
    · exact hmantissa.1 c hc

theorem digitsValue_mantissaDigits {t : Text} {negative : Bool} {digits : ℕ} {exponent : ℤ}
    (h : Written t (.decimal negative digits exponent)) :
    digitsValue (mantissaDigits t) = digits := by
  cases h with
  | intro hbefore hcore hafter =>
      cases hcore with
      | decimal hs hm hx => rw [mantissaDigits_eq hbefore hs hm hx hafter]

theorem eq_zeros {ds : Text} (h : ∀ c ∈ ds, c = '0') : ds = List.replicate ds.length '0' :=
  List.eq_replicate_iff.mpr ⟨rfl, h⟩

/-- The value of a mantissa is a number of as many digits as are significant, times a power of
ten. -/
theorem exists_significant (t : Text) :
    ∃ n k : ℕ, digitsValue (mantissaDigits t) = n * 10 ^ k ∧ n < 10 ^ (significant t).length := by
  obtain ⟨before, after, hsplit, hbefore, hafter⟩ :=
    Text.exists_stripBy (· = '0') (mantissaDigits t)
  have hdigits : ∀ c ∈ significant t, c.isDigit := by
    intro c hc
    have hmem : c ∈ mantissaDigits t := by
      rw [hsplit]
      exact List.mem_append_left after (List.mem_append_right before hc)
    exact (List.mem_filter.mp hmem).2
  refine ⟨digitsValue (significant t), after.length, ?_, digitsValue_lt hdigits⟩
  rw [hsplit, eq_zeros (fun c hc => of_decide_eq_true (hbefore c hc)),
    eq_zeros (fun c hc => of_decide_eq_true (hafter c hc)), digitsValue_append_zeros,
    digitsValue_zeros_append, List.length_replicate]
  rfl

end Numeral

/-! ## Positional notation -/

namespace Decimal

/-- The whole part of a number, without zeros at its start. -/
structure WholePart (w : Text) : Prop where
  ne_nil : w ≠ []
  digits : ∀ c ∈ w, c.isDigit
  leading : w.head? = some '0' → w = ['0']

/-- Positional notation without superfluous zeros: a whole part, and a fraction only if it does not
end in a zero. -/
inductive Tidy : Text → Prop
  | whole {w : Text} (hw : WholePart w) : Tidy w
  | pointed {w f : Text} (hw : WholePart w) (hne : f ≠ []) (hf : ∀ c ∈ f, c.isDigit)
      (hlast : f.getLast? ≠ some '0') : Tidy (w ++ '.' :: f)

variable {d : Decimal}

theorem wholePart_positionalParts (hd : d.digits ≠ 0) : WholePart d.positionalParts.1 := by
  have hparts := parts_positionalParts d
  have hhead : d.digitText.head? ≠ some '0' := head?_toDigits hd
  have hne : d.digitText ≠ [] := Nat.toDigits_ne_nil
  refine ⟨hparts.whole_ne_nil, hparts.whole_digits, ?_⟩
  intro hzero
  simp only [positionalParts] at hzero ⊢
  split at hzero
  · simp only [List.head?_append_of_ne_nil _ hne] at hzero
    exact absurd hzero hhead
  · next hexponent =>
      rw [if_neg hexponent]
      split at hzero
      · next hplaces =>
          rw [List.splitAt_eq, List.head?_take, if_neg (by omega)] at hzero
          exact absurd hzero hhead
      · next hplaces => rw [if_neg hplaces]

theorem getLast?_positionalParts (hd : d.digits % 10 ≠ 0) :
    d.positionalParts.2.getLast? ≠ some '0' := by
  have hlast : d.digitText.getLast? ≠ some '0' := getLast?_toDigits hd
  have hne : d.digitText ≠ [] := Nat.toDigits_ne_nil
  simp only [positionalParts]
  split
  · simp
  · split
    · rw [List.splitAt_eq, List.getLast?_drop]
      split
      · simp
      · exact hlast
    · simp only [List.getLast?_append_of_ne_nil _ hne]
      exact hlast

/-- A decimal that does not end in a zero has tidy positional notation. -/
theorem tidy_positional (hd : d.digits % 10 ≠ 0) : Tidy d.positional := by
  have hwhole := wholePart_positionalParts (d := d) (by omega)
  rw [positional_eq]
  split
  · rw [List.append_nil]
    exact .whole hwhole
  · next hne =>
      exact .pointed hwhole hne (parts_positionalParts d).fraction_digits
        (getLast?_positionalParts hd)

/-- The digits of positional notation are those of the decimal, with zeros at both ends. -/
theorem exists_zeros (d : Decimal) : ∃ j k, d.positionalParts.1 ++ d.positionalParts.2 =
    List.replicate j '0' ++ d.digitText ++ List.replicate k '0' := by
  simp only [positionalParts]
  split
  · exact ⟨0, d.exponent.toNat, by simp⟩
  · split
    · refine ⟨0, 0, ?_⟩
      rw [List.splitAt_eq, List.take_append_drop]
      simp
    · refine ⟨(-d.exponent).toNat - d.digitText.length + 1, 0, ?_⟩
      simp [List.replicate_succ]

theorem tidy_shortest {m : ℕ} {e : ℤ} (h : Canonical m e) : Tidy (shortest m e h).positional := by
  by_cases hm : m = 0
  · subst hm
    have hzero : shortest 0 e h = ⟨0, 0⟩ := if_pos rfl
    have hshown : (⟨0, 0⟩ : Decimal).positional = ['0'] := by decide
    rw [hzero, hshown]
    exact .whole ⟨by simp, List.forall_mem_singleton.mpr (by decide), fun _ => rfl⟩
  · exact tidy_positional ((coarsest_shortest h hm).digits_mod_ten hm)

end Decimal

/-! ## Shown numbers -/

namespace Binary64

/-- The texts that numbers are shown as. -/
inductive Shown : Binary64 → Text → Prop
  | nan : Shown .nan "NaN"
  | infinite (negative : Bool) : Shown (.infinite negative) (withSign negative "inf")
  | finite {m : ℕ} {e : ℤ} {t : Text} (negative : Bool) (h : Canonical m e)
      (ht : Decimal.Tidy t) : Shown (.finite negative m e h) (withSign negative t)

theorem shown_display (x : Binary64) : Shown x x.display := by
  cases x with
  | nan => exact .nan
  | infinite negative => exact .infinite negative
  | finite negative m e h => exact .finite negative h (Decimal.tidy_shortest h)

variable {negative : Bool} {m : ℕ} {e : ℤ} {h : Canonical m e}

/-- A text that is read as a number has at least as many significant digits as the shortest decimal
of the number has digits. -/
theorem length_digitText_le (hm : m ≠ 0) {t : Text} (ht : read? t = some (.finite negative m e h)) :
    (Decimal.shortest m e h).digitText.length ≤ (Numeral.significant t).length := by
  have hcoarsest := Decimal.coarsest_shortest h hm
  obtain ⟨numeral, hnumeral, hvalue⟩ := Option.map_eq_some_iff.mp ht
  have hwritten := Numeral.written_of_read? hnumeral
  cases numeral with
  | nan => contradiction
  | infinity s => contradiction
  | decimal s digits exponent =>
      obtain ⟨n, k, hdigits, hn⟩ := Numeral.exists_significant t
      rw [Numeral.digitsValue_mantissaDigits hwritten] at hdigits
      have hscaled : (digits : ℚ) * 10 ^ exponent = n * 10 ^ (k + exponent) := by
        rw [hdigits, zpow_add₀ (by norm_num), zpow_natCast]
        push_cast
        ring
      rw [Numeral.value, ofDecimal_eq, hscaled] at hvalue
      have hlt := hcoarsest.digits_lt hm hn (nearestTo_sign hvalue false)
      have hpos : 0 < (Numeral.significant t).length := by
        rw [Nat.pos_iff_ne_zero]
        intro hzero
        rw [hzero] at hlt
        have := hcoarsest.digits_pos hm
        omega
      exact (Nat.length_toDigits_le_iff (by decide) hpos).mpr hlt

/-- The text that is shown for a number has no other significant digits than the shortest decimal
of the number. -/
theorem length_significant_display_le :
    (Numeral.significant (finite negative m e h).display).length ≤
      (Decimal.shortest m e h).digitText.length := by
  obtain ⟨s, hs, hsign⟩ := sign_withSign negative (Decimal.shortest m e h).positional
  have hblanks : ∀ c ∈ ([] : Text), Numeral.isBlank c := by simp
  have hmantissa := Numeral.mantissaDigits_eq hblanks hs
    (Decimal.mantissa_positional (Decimal.shortest m e h)) .absent hblanks
  obtain ⟨j, k, hzeros⟩ := Decimal.exists_zeros (Decimal.shortest m e h)
  simp only [List.append_nil, List.nil_append, ← hsign, hzeros] at hmantissa
  rw [display, Numeral.significant, hmantissa, Text.stripBy_append]
  · exact Text.length_stripBy_le _ _
  · exact fun c hc => decide_eq_true (List.eq_of_mem_replicate hc)
  · exact fun c hc => decide_eq_true (List.eq_of_mem_replicate hc)

/-- **Numbers are shown in canonical form**: without superfluous zeros and without an exponent, as a
text that is read as the number, and no text that is read as the number has fewer significant
digits. -/
theorem display_canonical (x : Binary64) :
    Shown x x.display ∧ read? x.display = some x ∧
      ∀ t, read? t = some x →
        (Numeral.significant x.display).length ≤ (Numeral.significant t).length := by
  refine ⟨shown_display x, read?_display x, ?_⟩
  intro t ht
  cases x with
  | nan => exact Nat.zero_le _
  | infinite negative => cases negative <;> exact Nat.zero_le _
  | finite negative m e h =>
      by_cases hm : m = 0
      -- the text of a zero has no significant digits
      · subst hm
        have hzero : Decimal.shortest 0 e h = ⟨0, 0⟩ := if_pos rfl
        rw [display, hzero]
        cases negative <;> exact Nat.zero_le _
      · exact length_significant_display_le.trans (length_digitText_le hm ht)

/-- One tenth may be written with an exponent and with zeros, but not with fewer significant digits
than it is shown with. -/
theorem display_canonical_tenth :
    read? "100e-3" = some (.finite false 0x1999999999999a (-56) (by decide)) ∧
      (Numeral.significant (finite false 0x1999999999999a (-56) (by decide)).display).length ≤
        (Numeral.significant "100e-3").length := by
  have hread : read? "100e-3" = some (.finite false 0x1999999999999a (-56) (by decide)) := by decide
  exact ⟨hread, (display_canonical _).2.2 _ hread⟩

end Binary64

end MiniLisp
