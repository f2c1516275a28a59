import MiniLisp.Number.Notation
import MiniLisp.Proofs.Number.Numeral
import MiniLisp.Proofs.Number.Shortest

set_option autoImplicit false

/-! # Written numbers are numerals

The text that the language shows for a number is a numeral of that number
(`Binary64.spells_display`), so no number is lost or changed by printing it, the zeros keep their
signs, and NaN and the infinities come back as well. The same goes for the text of a number in a
debugging text (`Binary64.spells_debug`).

Positional notation is two runs of digits, before and behind a point that is left out if nothing
stands behind it (`Parts`), and that is what the grammar of numerals has between a sign and an
exponent. With an exponent the runs are the first digit and the others. Either way the text stands
for the shortest decimal (`Spelled`), and this one is rounded to the number.
-/

namespace MiniLisp

/-! ## Runs of digits -/

namespace Numeral

theorem digitsValue_toDigits (n : ℕ) : digitsValue (Nat.toDigits 10 n) = n :=
  Nat.ofDigitChars_ten_toDigits

theorem digitsValue_append_zeros (ds : Text) (k : ℕ) :
    digitsValue (ds ++ List.replicate k '0') = digitsValue ds * 10 ^ k := by
  rw [digitsValue, Nat.ofDigitChars_append, Nat.ofDigitChars_replicate_zero, mul_comm]
  rfl

theorem digitsValue_zeros_append (ds : Text) (k : ℕ) :
    digitsValue (List.replicate k '0' ++ ds) = digitsValue ds := by
  rw [digitsValue, Nat.ofDigitChars_append, Nat.ofDigitChars_replicate_zero, mul_zero]
  rfl

end Numeral

/-! ## Positional notation -/

namespace Decimal

/-- Runs of digits before and behind the point that stand for a decimal. -/
structure Parts (d : Decimal) (whole fraction : Text) : Prop where
  whole_ne_nil : whole ≠ []
  whole_digits : ∀ c ∈ whole, c.isDigit
  fraction_digits : ∀ c ∈ fraction, c.isDigit
  value : (Numeral.digitsValue (whole ++ fraction) : ℚ) * 10 ^ (0 - (fraction.length : ℤ)) = d.value

theorem isDigit_of_mem_digitText {d : Decimal} {c : Char} (h : c ∈ d.digitText) : c.isDigit :=
  Nat.isDigit_of_mem_toDigits (by decide) (by decide) h

theorem isDigit_of_mem_zeros {k : ℕ} {c : Char} (h : c ∈ List.replicate k '0') : c.isDigit := by
  rw [List.eq_of_mem_replicate h]
  decide

theorem parts_positionalParts (d : Decimal) :
    Parts d d.positionalParts.1 d.positionalParts.2 := by
  have hdigits : Numeral.digitsValue d.digitText = d.digits := Numeral.digitsValue_toDigits d.digits
  simp only [positionalParts]
  split
  -- zeros behind the digits and no fraction
  · next hexp =>
      obtain ⟨k, hk⟩ := Int.eq_ofNat_of_zero_le hexp
      refine ⟨?_, ?_, by simp, ?_⟩
      · intro h
        exact Nat.toDigits_ne_nil (List.append_eq_nil_iff.mp h).1
      · intro c hc
        rcases List.mem_append.mp hc with hc | hc
        · exact isDigit_of_mem_digitText hc
        · exact isDigit_of_mem_zeros hc
      · rw [List.append_nil, Numeral.digitsValue_append_zeros, hdigits, value, hk]
        simp
  · next hexp =>
      obtain ⟨k, hk⟩ := Int.eq_ofNat_of_zero_le (show 0 ≤ -d.exponent by omega)
      have hexponent : d.exponent = 0 - (k : ℤ) := by omega
      split
      -- the point stands among the digits
      · next hplaces =>
          rw [List.splitAt_eq]
          have hlength :
              (d.digitText.drop (d.digitText.length - (-d.exponent).toNat)).length = k := by
            rw [List.length_drop]
            omega
          refine ⟨?_, ?_, ?_, ?_⟩
          · rw [Ne, List.take_eq_nil_iff]
            have : d.digitText ≠ [] := Nat.toDigits_ne_nil
            rintro (h | h)
            · omega
            · contradiction
          · intro c hc
            exact isDigit_of_mem_digitText (List.mem_of_mem_take hc)
          · intro c hc
            exact isDigit_of_mem_digitText (List.mem_of_mem_drop hc)
          · simp only [List.take_append_drop, hlength]
            rw [hdigits, value, hexponent]
      -- the point stands before the digits, with zeros between
      · next hplaces =>
          have hlength : (List.replicate ((-d.exponent).toNat - d.digitText.length) '0' ++
              d.digitText).length = k := by
            rw [List.length_append, List.length_replicate]
            omega
          refine ⟨by simp, by simp, ?_, ?_⟩
          · intro c hc
            rcases List.mem_append.mp hc with hc | hc
            · exact isDigit_of_mem_zeros hc
            · exact isDigit_of_mem_digitText hc
          · have hzero : Numeral.digitsValue (['0'] ++ (List.replicate ((-d.exponent).toNat -
                d.digitText.length) '0' ++ d.digitText)) = d.digits := by
              rw [← List.append_assoc, ← List.replicate_one, List.replicate_append_replicate,
                Numeral.digitsValue_zeros_append, hdigits]
            rw [hzero, hlength, value, hexponent]

theorem positional_eq (d : Decimal) :
    d.positional = d.positionalParts.1 ++
      (if d.positionalParts.2 = [] then [] else '.' :: d.positionalParts.2) := by
  rw [positional]
  split
  · next h => simp [h]
  · next whole fraction hne h =>
      have : fraction ≠ [] := hne
      simp [h, this]

/-- Positional notation is digits with an optional point. -/
theorem mantissa_positional (d : Decimal) :
    Numeral.Mantissa d.positional d.positionalParts.1 d.positionalParts.2 := by
  have hparts := parts_positionalParts d
  rw [positional_eq]
  split
  · next h =>
      rw [List.append_nil, h]
      exact .whole hparts.whole_digits hparts.whole_ne_nil
  · exact .pointed hparts.whole_digits hparts.fraction_digits (by simp [hparts.whole_ne_nil])

/-- The texts that stand for a decimal: digits with an optional point, and an optional exponent. -/
inductive Spelled (d : Decimal) : Text → Prop
  | intro {m x w f : Text} {e : ℤ} (hm : Numeral.Mantissa m w f) (hx : Numeral.Exponent x e)
      (hvalue : (Numeral.digitsValue (w ++ f) : ℚ) * 10 ^ (e - (f.length : ℤ)) = d.value) :
      Spelled d (m ++ x)

theorem spelled_positional (d : Decimal) : d.Spelled d.positional := by
  have hspelled := Spelled.intro (mantissa_positional d) .absent (parts_positionalParts d).value
  rwa [List.append_nil] at hspelled

/-! ## Notation for debugging -/

theorem spelled_pointed (d : Decimal) : d.Spelled d.pointed := by
  have hparts := parts_positionalParts d
  rw [pointed]
  split
  · next whole h =>
      -- a zero behind the point
      rw [h] at hparts
      have hmantissa : Numeral.Mantissa (whole ++ '.' :: ['0']) whole ['0'] :=
        .pointed hparts.whole_digits (by simp) (by simp)
      have hvalue : (Numeral.digitsValue (whole ++ ['0']) : ℚ) * 10 ^ (0 - (1 : ℤ)) = d.value := by
        have hzero := Numeral.digitsValue_append_zeros whole 1
        have hwhole := hparts.value
        simp only [List.append_nil, List.length_nil, Nat.cast_zero, sub_zero, zpow_zero,
          mul_one] at hwhole
        rw [List.replicate_one] at hzero
        rw [hzero, ← hwhole]
        push_cast
        ring
      have hspelled := Spelled.intro hmantissa .absent hvalue
      rwa [List.append_nil] at hspelled
  · next whole fraction hne h =>
      rw [h] at hparts
      have hmantissa : Numeral.Mantissa (whole ++ '.' :: fraction) whole fraction :=
        .pointed hparts.whole_digits hparts.fraction_digits (by simp [hparts.whole_ne_nil])
      have hspelled := Spelled.intro hmantissa .absent hparts.value
      rwa [List.append_nil] at hspelled

/-- Digits of the size of an integer, behind its sign. -/
theorem integer_of_digits {e : ℤ} {ds : Text} (hds : ∀ c ∈ ds, c.isDigit) (hne : ds ≠ [])
    (hvalue : Numeral.digitsValue ds = e.natAbs) :
    Numeral.Integer ((if e < 0 then '-' else '+') :: ds) e := by
  split
  · next hneg =>
      have hinteger := Numeral.Integer.intro .minus hds hne
      rw [if_pos rfl, hvalue] at hinteger
      rwa [show -(e.natAbs : ℤ) = e by omega] at hinteger
  · next hnonneg =>
      have hinteger := Numeral.Integer.intro .plus hds hne
      rw [if_neg (by decide), hvalue] at hinteger
      rwa [show (e.natAbs : ℤ) = e by omega] at hinteger

theorem integer_exponentText (e : ℤ) : Numeral.Integer (exponentText e) e := by
  have hdigits : ∀ c ∈ Text.ofNat e.natAbs, c.isDigit :=
    fun c hc => Nat.isDigit_of_mem_toDigits (by decide) (by decide) hc
  have hvalue : Numeral.digitsValue (Text.ofNat e.natAbs) = e.natAbs :=
    Numeral.digitsValue_toDigits e.natAbs
  simp only [exponentText]
  by_cases hlength : (Text.ofNat e.natAbs).length < 2
  · rw [if_pos hlength]
    have hzero := Numeral.digitsValue_zeros_append (Text.ofNat e.natAbs) 1
    exact integer_of_digits (by simpa using hdigits) (by simp) (hzero.trans hvalue)
  · rw [if_neg hlength]
    exact integer_of_digits hdigits Nat.toDigits_ne_nil hvalue

/-- The digits with a point behind the first of them, if it is not the only one. -/
theorem mantissa_significand {first : Char} {rest : Text} (h : ∀ c ∈ first :: rest, c.isDigit) :
    Numeral.Mantissa (if rest = [] then [first] else first :: '.' :: rest) [first] rest := by
  obtain ⟨hfirst, hrest⟩ := List.forall_mem_cons.mp h
  split
  · next hnil =>
      rw [hnil]
      exact .whole (by simpa using hfirst) (by simp)
  · exact .pointed (w := [first]) (by simpa using hfirst) hrest (by simp)

theorem spelled_scientific (d : Decimal) : d.Spelled d.scientific := by
  have hdigits : ∀ c ∈ d.digitText, c.isDigit := fun c hc => isDigit_of_mem_digitText hc
  have hvalue : Numeral.digitsValue d.digitText = d.digits := Numeral.digitsValue_toDigits d.digits
  obtain ⟨first, rest, htext⟩ : ∃ first rest, d.digitText = first :: rest :=
    List.exists_cons_of_ne_nil Nat.toDigits_ne_nil
  have hleading : d.leading - (rest.length : ℤ) = d.exponent := by
    rw [leading, htext, List.length_cons]
    omega
  have hsignificand : d.scientific =
      (if rest = [] then [first] else first :: '.' :: rest) ++ 'e' :: exponentText d.leading := by
    simp only [scientific, htext]
    cases rest <;> rfl
  rw [hsignificand]
  rw [htext] at hdigits
  refine .intro (mantissa_significand hdigits) (.present (Or.inl rfl) (integer_exponentText _)) ?_
  rw [List.singleton_append, ← htext, hvalue, hleading, value]

end Decimal

namespace Binary64

/-! ## Written numbers -/

theorem sign_withSign (negative : Bool) (t : Text) :
    ∃ s, Numeral.Sign s negative ∧ withSign negative t = s ++ t := by
  cases negative with
  | false => exact ⟨_, .absent, rfl⟩
  | true => exact ⟨_, .minus, rfl⟩

/-- A text that stands for the shortest decimal of a number, behind the sign of the number, is a
numeral of this number. -/
theorem spells_of_spelled {m : ℕ} {e : ℤ} {h : Canonical m e} {t : Text}
    (ht : (Decimal.shortest m e h).Spelled t) (negative : Bool) :
    ∃ n, Numeral.Spells (withSign negative t) n ∧ n.value = .finite negative m e h := by
  obtain ⟨s, hs, hsign⟩ := sign_withSign negative t
  cases ht with
  | intro hm hx hvalue =>
      rw [hsign]
      refine ⟨_, .decimal hs hm hx, ?_⟩
      -- what is rounded is the value of the shortest decimal
      rw [Numeral.value, ofDecimal_eq, hvalue, nearestTo_sign (Decimal.shortest_reads h)]

theorem spells_infinite (negative : Bool) :
    ∃ n, Numeral.Spells (withSign negative "inf") n ∧ n.value = .infinite negative := by
  obtain ⟨s, hs, hsign⟩ := sign_withSign negative "inf"
  rw [hsign]
  exact ⟨.infinity negative, .infinity hs (Or.inl (by decide)), rfl⟩

/-- **The text that is shown for a number is a numeral of this number.** -/
theorem spells_display (x : Binary64) : ∃ n, Numeral.Spells x.display n ∧ n.value = x := by
  cases x with
  | nan => exact ⟨_, .nan .absent (by decide), rfl⟩
  | infinite negative => exact spells_infinite negative
  | finite negative m e h => exact spells_of_spelled (Decimal.spelled_positional _) negative

/-- **So is the text of a number in a debugging text.** -/
theorem spells_debug (x : Binary64) : ∃ n, Numeral.Spells x.debug n ∧ n.value = x := by
  cases x with
  | nan => exact ⟨_, .nan .absent (by decide), rfl⟩
  | infinite negative => exact spells_infinite negative
  | finite negative m e h =>
      apply spells_of_spelled
      split
      · exact Decimal.spelled_pointed _
      · exact Decimal.spelled_scientific _

/-- A numeral is read as the number that it stands for. -/
theorem read?_of_spells {t : Text} {n : Numeral} (h : Numeral.Spells t n) :
    read? t = some n.value := by
  rw [read?, h.written.read?_eq, Option.map_some]

theorem read?_display (x : Binary64) : read? x.display = some x := by
  obtain ⟨n, hspells, hvalue⟩ := spells_display x
  rw [read?_of_spells hspells, hvalue]

theorem read?_debug (x : Binary64) : read? x.debug = some x := by
  obtain ⟨n, hspells, hvalue⟩ := spells_debug x
  rw [read?_of_spells hspells, hvalue]

/-- Numbers with one debugging text are one number. -/
theorem debug_injective : Function.Injective debug := by
  intro x y h
  have hread := read?_debug x
  rw [h, read?_debug y] at hread
  exact (Option.some.inj hread).symm

/-- The characters that numbers are shown with. -/
theorem toNat_of_mem_display {x : Binary64} {c : Char} (h : c ∈ x.display) :
    43 ≤ c.toNat ∧ c.toNat ≤ 122 := by
  obtain ⟨n, hspells, -⟩ := spells_display x
  have := hspells.mem h
  omega

theorem not_isBlank_of_mem_display {x : Binary64} {c : Char} (h : c ∈ x.display) :
    Text.isBlank c = false := by
  have := toNat_of_mem_display h
  simp [Text.isBlank]
  omega

theorem display_ne_nil (x : Binary64) : x.display ≠ [] := by
  obtain ⟨n, hspells, -⟩ := spells_display x
  exact hspells.ne_nil

/-- No number is written with a parenthesis. -/
theorem close_not_mem_debug (x : Binary64) : ')' ∉ x.debug := by
  intro h
  obtain ⟨n, hspells, -⟩ := spells_debug x
  have := hspells.mem h
  simp at this

/-- A text that starts with a double quote is no numeral. -/
theorem read?_eq_none {t : Text} (h : t.head? = some '"') : read? t = none := by
  rw [read?, Option.map_eq_none_iff, Option.eq_none_iff_forall_ne_some]
  intro n hn
  have hquote := (Numeral.written_of_read? hn).mem (List.mem_of_mem_head? h)
  simp at hquote

end Binary64

end MiniLisp
