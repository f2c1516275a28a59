import Mathlib.Data.List.TakeWhile
import MiniLisp.Number.Numeral
import MiniLisp.Proofs.Number.Closest

set_option autoImplicit false

/-! # The grammar of numerals

A numeral is told here by what it consists of (`Numeral.Spells`): an optional sign, then a word or
digits with an optional point and an optional exponent. Between ASCII blanks it is what a text may
be to be read as a number (`Numeral.Written`), and the number is the one that the exact value of
the numeral is rounded to (`Numeral.Means`).

Each piece of the grammar is taken off a text by one function, which needs to know what follows the
piece only to see where it ends. So there are two lemmas for a piece: the function takes off what
the grammar allows, and what it takes off is allowed.
-/

namespace MiniLisp

/-! ## Characters -/

theorem toNat_of_isDigit {c : Char} (h : c.isDigit) : 48 ≤ c.toNat ∧ c.toNat ≤ 57 := by
  simp only [Char.isDigit, Bool.and_eq_true, decide_eq_true_eq, ge_iff_le,
    UInt32.le_iff_toNat_le] at h
  exact h

/-- A character is turned into another one only if it is an upper case letter. -/
theorem toLower_cases (c : Char) : 65 ≤ c.toNat ∧ c.toNat ≤ 90 ∨ c.toLower = c := by
  unfold Char.toLower
  split
  · next h => exact Or.inl ⟨UInt32.le_iff_toNat_le.mp h.1, UInt32.le_iff_toNat_le.mp h.2⟩
  · exact Or.inr rfl

/-! ## Blanks at the ends -/

namespace Text

theorem stripBy_eq_self {p : Char → Bool} {t : Text} (h : ∀ c ∈ t, p c = false) :
    stripBy p t = t := by
  have hdrop : ∀ u : Text, (∀ c ∈ u, p c = false) → u.dropWhile p = u := by
    intro u hu
    cases u with
    | nil => rfl
    | cons c u => rw [List.dropWhile_cons, hu c (by simp)]; rfl
  rw [stripBy, hdrop t h, hdrop t.reverse (fun c hc => h c (List.mem_reverse.mp hc)),
    List.reverse_reverse]

/-- Characters of the class at either end make no difference. -/
theorem stripBy_append {p : Char → Bool} {before after : Text} (hbefore : ∀ c ∈ before, p c)
    (core : Text) (hafter : ∀ c ∈ after, p c) :
    stripBy p (before ++ core ++ after) = stripBy p core := by
  have hafter' : ∀ c ∈ after.reverse, p c := fun c hc => hafter c (List.mem_reverse.mp hc)
  rw [stripBy, stripBy, List.append_assoc, List.dropWhile_append_of_pos hbefore,
    List.dropWhile_append]
  split
  · next hempty =>
      have hall : after.dropWhile p = [] := List.dropWhile_eq_nil_iff.mpr hafter
      rw [List.isEmpty_iff.mp hempty, hall]
  · rw [List.reverse_append, List.dropWhile_append_of_pos hafter']

theorem length_stripBy_le (p : Char → Bool) (t : Text) : (stripBy p t).length ≤ t.length := by
  have hfront := (List.dropWhile_sublist p (l := t)).length_le
  have hback := (List.dropWhile_sublist p (l := (t.dropWhile p).reverse)).length_le
  rw [List.length_reverse] at hback
  rw [stripBy, List.length_reverse]
  omega

theorem exists_stripBy (p : Char → Bool) (t : Text) :
    ∃ before after, t = before ++ stripBy p t ++ after ∧ (∀ c ∈ before, p c) ∧
      ∀ c ∈ after, p c := by
  set u := (t.dropWhile p).reverse with hu
  refine ⟨t.takeWhile p, (u.takeWhile p).reverse, ?_, fun c hc => List.mem_takeWhile_imp hc,
    fun c hc => List.mem_takeWhile_imp (List.mem_reverse.mp hc)⟩
  have hback : stripBy p t ++ (u.takeWhile p).reverse = t.dropWhile p := by
    rw [stripBy, ← hu, ← List.reverse_append, List.takeWhile_append_dropWhile, hu,
      List.reverse_reverse]
  rw [List.append_assoc, hback, List.takeWhile_append_dropWhile]

end Text

namespace Numeral

/-! ## The grammar -/

/-- An optional sign, and whether it is a minus. -/
inductive Sign : Text → Bool → Prop
  | absent : Sign [] false
  | plus : Sign ['+'] false
  | minus : Sign ['-'] true

/-- Digits with an optional point: those before it and those behind it, at least one in all. -/
inductive Mantissa : Text → Text → Text → Prop
  | whole {w : Text} (hw : ∀ c ∈ w, c.isDigit) (hne : w ≠ []) : Mantissa w w []
  | pointed {w f : Text} (hw : ∀ c ∈ w, c.isDigit) (hf : ∀ c ∈ f, c.isDigit) (hne : w ++ f ≠ []) :
      Mantissa (w ++ '.' :: f) w f

/-- An integer: an optional sign and digits, at least one. -/
inductive Integer : Text → ℤ → Prop
  | intro {s ds : Text} {negative : Bool} (hs : Sign s negative) (hds : ∀ c ∈ ds, c.isDigit)
      (hne : ds ≠ []) :
      Integer (s ++ ds) (if negative then -digitsValue ds else digitsValue ds)

/-- An optional exponent. -/
inductive Exponent : Text → ℤ → Prop
  | absent : Exponent [] 0
  | present {c : Char} {t : Text} {e : ℤ} (hc : c = 'e' ∨ c = 'E') (ht : Integer t e) :
      Exponent (c :: t) e

/-- A numeral, without blanks around it. -/
inductive Spells : Text → Numeral → Prop
  | infinity {s w : Text} {negative : Bool} (hs : Sign s negative)
      (hw : w.map Char.toLower = "inf" ∨ w.map Char.toLower = "infinity") :
      Spells (s ++ w) (.infinity negative)
  | nan {s w : Text} {negative : Bool} (hs : Sign s negative) (hw : w.map Char.toLower = "nan") :
      Spells (s ++ w) .nan
  | decimal {s m x w f : Text} {negative : Bool} {e : ℤ} (hs : Sign s negative)
      (hm : Mantissa m w f) (hx : Exponent x e) :
      Spells (s ++ (m ++ x)) (.decimal negative (digitsValue (w ++ f)) (e - f.length))

/-- A numeral between blanks. -/
inductive Written : Text → Numeral → Prop
  | intro {before core after : Text} {n : Numeral} (hbefore : ∀ c ∈ before, isBlank c)
      (hcore : Spells core n) (hafter : ∀ c ∈ after, isBlank c) :
      Written (before ++ core ++ after) n

/-- What a numeral says, and the double it stands for: a decimal stands for the double closest to
`± digits * 10 ^ exponent`. -/
inductive Means : Numeral → Binary64 → Prop
  | nan : Means .nan .nan
  | infinity (negative : Bool) : Means (.infinity negative) (.infinite negative)
  | decimal {negative : Bool} {digits : ℕ} {exponent : ℤ} {y : Binary64}
      (h : Binary64.Rounded negative (Binary64.withSignOf negative (digits * 10 ^ exponent)) y) :
      Means (.decimal negative digits exponent) y

theorem means_iff (n : Numeral) (y : Binary64) : Means n y ↔ n.value = y := by
  constructor
  · intro h
    cases h with
    | nan => rfl
    | infinity negative => rfl
    | @decimal negative digits exponent y h =>
        rw [value, Binary64.ofDecimal_eq]
        exact (Binary64.rounded_nearestTo negative (by positivity)).unique h
  · rintro rfl
    cases n with
    | nan => exact .nan
    | infinity negative => exact .infinity negative
    | decimal negative digits exponent =>
        rw [value, Binary64.ofDecimal_eq]
        exact .decimal (Binary64.rounded_nearestTo negative (by positivity))

/-! ## Signs -/

/-- A sign is taken off in front of anything else: the signs come before the digits, the point and
the letters. -/
theorem splitSign_of_sign {s : Text} {negative : Bool} (hs : Sign s negative) {r : Text}
    (hr : ∀ c ∈ r.head?, 46 ≤ c.toNat) : splitSign (s ++ r) = (negative, r) := by
  cases hs with
  | absent =>
      rw [List.nil_append]
      unfold splitSign
      split
      · exact absurd (hr '-' rfl) (by decide)
      · exact absurd (hr '+' rfl) (by decide)
      · rfl
  | plus => rfl
  | minus => rfl

theorem sign_of_splitSign {t r : Text} {negative : Bool} (h : splitSign t = (negative, r)) :
    ∃ s, Sign s negative ∧ t = s ++ r := by
  unfold splitSign at h
  split at h <;> cases h
  · exact ⟨_, .minus, rfl⟩
  · exact ⟨_, .plus, rfl⟩
  · exact ⟨_, .absent, rfl⟩

/-! ## Digits -/

theorem spanDigits_append {ds r : Text} (hds : ∀ c ∈ ds, c.isDigit)
    (hr : ∀ c ∈ r.head?, ¬ c.isDigit) : spanDigits (ds ++ r) = (ds, r) := by
  have hrest : r.takeWhile Char.isDigit = [] ∧ r.dropWhile Char.isDigit = r := by
    cases r with
    | nil => exact ⟨rfl, rfl⟩
    | cons c r =>
        have hc : ¬ c.isDigit := hr c rfl
        simp [hc]
  rw [spanDigits, List.takeWhile_append_of_pos hds, List.dropWhile_append_of_pos hds, hrest.1,
    hrest.2, List.append_nil]

theorem digits_of_spanDigits {t ds r : Text} (h : spanDigits t = (ds, r)) :
    (∀ c ∈ ds, c.isDigit) ∧ t = ds ++ r := by
  cases h
  exact ⟨fun c hc => List.mem_takeWhile_imp hc, List.takeWhile_append_dropWhile.symm⟩

theorem splitFraction_of_mantissa {m w f : Text} (hm : Mantissa m w f) {x : Text}
    (hx : ∀ c ∈ x.head?, ¬ c.isDigit ∧ c ≠ '.') : splitFraction (m ++ x) = (w, f, x) := by
  have hdigit : ∀ c ∈ x.head?, ¬ c.isDigit := fun c hc => (hx c hc).1
  cases hm with
  | whole hw hne =>
      have hspan := spanDigits_append hw hdigit
      simp only [splitFraction, hspan]
      split
      · exact absurd rfl (hx '.' rfl).2
      · rfl
  | pointed hw hf hne =>
      have hspan : spanDigits (w ++ '.' :: (f ++ x)) = (w, '.' :: (f ++ x)) :=
        spanDigits_append hw (by simp)
      rw [List.append_assoc, List.cons_append]
      simp only [splitFraction, hspan, spanDigits_append hf hdigit]

theorem mantissa_of_splitFraction {t w f x : Text} (h : splitFraction t = (w, f, x))
    (hne : ¬ (w = [] ∧ f = [])) : ∃ m, Mantissa m w f ∧ t = m ++ x := by
  rw [splitFraction] at h
  rcases hspan : spanDigits t with ⟨ds, r⟩
  obtain ⟨hds, rfl⟩ := digits_of_spanDigits hspan
  rw [hspan] at h
  simp only at h
  split at h
  · next r' =>
      rcases hspan' : spanDigits r' with ⟨ds', r''⟩
      obtain ⟨hds', rfl⟩ := digits_of_spanDigits hspan'
      rw [hspan'] at h
      cases h
      exact ⟨_, .pointed hds hds' (by simpa using hne), by simp⟩
  · cases h
    exact ⟨_, .whole hds (by simpa using hne), rfl⟩

/-! ## Exponents -/

theorem integer?_eq_some_iff (t : Text) (e : ℤ) : integer? t = some e ↔ Integer t e := by
  constructor
  · intro h
    rw [integer?] at h
    rcases hsplit : splitSign t with ⟨negative, ds⟩
    obtain ⟨s, hs, rfl⟩ := sign_of_splitSign hsplit
    simp only [hsplit] at h
    split at h
    · next hds =>
        cases h
        exact .intro hs (List.all_eq_true.mp hds.2) hds.1
    · contradiction
  · rintro ⟨hs, hds, hne⟩
    next s ds negative =>
    have hsplit : splitSign (s ++ ds) = (negative, ds) := by
      apply splitSign_of_sign hs
      intro c hc
      have := toNat_of_isDigit (hds c (List.mem_of_mem_head? hc))
      omega
    simp only [integer?, hsplit]
    rw [if_pos ⟨hne, List.all_eq_true.mpr hds⟩]

theorem exponent?_eq_some_iff (t : Text) (e : ℤ) : exponent? t = some e ↔ Exponent t e := by
  constructor
  · intro h
    cases t with
    | nil =>
        cases h
        exact .absent
    | cons c t =>
        rw [exponent?] at h
        split at h
        · next hc => exact .present hc ((integer?_eq_some_iff t e).mp h)
        · contradiction
  · intro h
    cases h with
    | absent => rfl
    | present hc ht => rw [exponent?, if_pos hc, (integer?_eq_some_iff _ e).mpr ht]

/-- An exponent starts with a letter. -/
theorem Exponent.head {t : Text} {e : ℤ} (h : Exponent t e) :
    ∀ c ∈ t.head?, ¬ c.isDigit ∧ c ≠ '.' := by
  cases h with
  | absent => simp
  | present hc ht =>
      intro c hhead
      obtain rfl := Option.some.inj hhead
      rcases hc with rfl | rfl <;> decide

/-! ## Numerals -/

/-- Digits with an optional point and an optional exponent. -/
theorem decimal?_eq_some_iff (negative : Bool) (t : Text) (n : Numeral) :
    decimal? negative t = some n ↔ ∃ m x w f e, Mantissa m w f ∧ Exponent x e ∧ t = m ++ x ∧
      n = .decimal negative (digitsValue (w ++ f)) (e - f.length) := by
  constructor
  · intro h
    rw [decimal?] at h
    rcases hsplit : splitFraction t with ⟨w, f, x⟩
    simp only [hsplit] at h
    split at h
    · contradiction
    · next hne =>
        obtain ⟨m, hm, rfl⟩ := mantissa_of_splitFraction hsplit hne
        obtain ⟨e, he, rfl⟩ := Option.map_eq_some_iff.mp h
        exact ⟨m, x, w, f, e, hm, (exponent?_eq_some_iff x e).mp he, rfl, rfl⟩
  · rintro ⟨m, x, w, f, e, hm, hx, rfl, rfl⟩
    have hne : ¬ (w = [] ∧ f = []) := by
      rintro ⟨rfl, rfl⟩
      cases hm with
      | whole hw hne => exact hne rfl
      | pointed hw hf hne => exact hne rfl
    simp only [decimal?, splitFraction_of_mantissa hm hx.head, (exponent?_eq_some_iff x e).mpr hx]
    rw [if_neg hne, Option.map_some]

/-- A mantissa consists of digits and points. -/
theorem Mantissa.mem {m w f : Text} (h : Mantissa m w f) {c : Char} (hc : c ∈ m) :
    c.isDigit ∨ c = '.' := by
  cases h with
  | whole hw hne => exact Or.inl (hw c hc)
  | pointed hw hf hne =>
      rcases List.mem_append.mp hc with hc | hc
      · exact Or.inl (hw c hc)
      · rcases List.mem_cons.mp hc with hc | hc
        · exact Or.inr hc
        · exact Or.inl (hf c hc)

theorem Mantissa.ne_nil {m w f : Text} (h : Mantissa m w f) : m ≠ [] := by
  cases h with
  | whole hw hne => exact hne
  | pointed hw hf hne => simp

/-- A mantissa starts with a digit or the point. -/
theorem Mantissa.head {m w f : Text} (hm : Mantissa m w f) (x : Text) :
    ∀ c ∈ (m ++ x).head?, 46 ≤ c.toNat ∧ c.toNat ≤ 57 := by
  intro c hc
  rw [List.head?_append_of_ne_nil _ hm.ne_nil] at hc
  rcases hm.mem (List.mem_of_mem_head? hc) with hdigit | rfl
  · have := toNat_of_isDigit hdigit
    omega
  · decide

/-- The words consist of letters. -/
theorem letter_of_mem_word {w u : Text} (hw : w.map Char.toLower = u)
    (hu : u.all fun d => 97 ≤ d.toNat ∧ d.toNat ≤ 122) {c : Char} (hc : c ∈ w) :
    65 ≤ c.toNat ∧ c.toNat ≤ 90 ∨ 97 ≤ c.toNat ∧ c.toNat ≤ 122 := by
  rcases toLower_cases c with hupper | hsame
  · exact Or.inl hupper
  · have hmem : c.toLower ∈ u := by
      rw [← hw]
      exact List.mem_map_of_mem hc
    have hlower := of_decide_eq_true (List.all_eq_true.mp hu c.toLower hmem)
    rw [hsame] at hlower
    exact Or.inr hlower

theorem letter_of_mem_infinity {w : Text}
    (hw : w.map Char.toLower = "inf" ∨ w.map Char.toLower = "infinity") {c : Char} (hc : c ∈ w) :
    65 ≤ c.toNat ∧ c.toNat ≤ 90 ∨ 97 ≤ c.toNat ∧ c.toNat ≤ 122 := by
  rcases hw with hw | hw
  · exact letter_of_mem_word hw (by decide) hc
  · exact letter_of_mem_word hw (by decide) hc

/-- What starts with a digit or a point is none of the words. -/
theorem not_word_of_head {r : Text} (hr : ∀ c ∈ r.head?, 46 ≤ c.toNat ∧ c.toNat ≤ 57) {d : Char}
    {u : Text} (hd : 97 ≤ d.toNat) : r.map Char.toLower ≠ d :: u := by
  intro hword
  cases r with
  | nil => simp at hword
  | cons c r =>
      have hlower : c.toLower = d := (List.cons.inj hword).1
      have hc := hr c rfl
      rcases toLower_cases c with hupper | hsame
      · omega
      · rw [← hsame, hlower] at hc
        omega

/-- The characters of a numeral are ASCII, and neither blanks nor underscores. -/
theorem Spells.mem {t : Text} {n : Numeral} (h : Spells t n) {c : Char} (hc : c ∈ t) :
    43 ≤ c.toNat ∧ c.toNat ≤ 122 ∧ c.toNat ≠ 95 := by
  have hsign : ∀ {s : Text} {negative : Bool}, Sign s negative → c ∈ s →
      43 ≤ c.toNat ∧ c.toNat ≤ 122 ∧ c.toNat ≠ 95 := by
    intro s negative hs hc
    cases hs with
    | absent => contradiction
    | plus => obtain rfl := List.mem_singleton.mp hc; decide
    | minus => obtain rfl := List.mem_singleton.mp hc; decide
  have hdigit : c.isDigit → 43 ≤ c.toNat ∧ c.toNat ≤ 122 ∧ c.toNat ≠ 95 := by
    intro hc
    have := toNat_of_isDigit hc
    omega
  cases h with
  | infinity hs hw =>
      rcases List.mem_append.mp hc with hc | hc
      · exact hsign hs hc
      · have := letter_of_mem_infinity hw hc
        omega
  | nan hs hw =>
      rcases List.mem_append.mp hc with hc | hc
      · exact hsign hs hc
      · have := letter_of_mem_word hw (by decide) hc
        omega
  | decimal hs hm hx =>
      rcases List.mem_append.mp hc with hc | hc
      · exact hsign hs hc
      rcases List.mem_append.mp hc with hc | hc
      · rcases hm.mem hc with hc | rfl
        · exact hdigit hc
        · decide
      · cases hx with
        | absent => contradiction
        | present hletter ht =>
            rcases List.mem_cons.mp hc with rfl | hc
            · rcases hletter with rfl | rfl <;> decide
            · obtain ⟨hs, hds, -⟩ := ht
              rcases List.mem_append.mp hc with hc | hc
              · exact hsign hs hc
              · exact hdigit (hds c hc)

theorem isBlank_bounds {c : Char} (h : isBlank c) : 9 ≤ c.toNat ∧ c.toNat ≤ 32 := by
  rw [isBlank, Bool.or_eq_true, Bool.and_eq_true, decide_eq_true_eq, decide_eq_true_eq,
    decide_eq_true_eq] at h
  rcases h with h | rfl
  · omega
  · decide

theorem Written.mem {t : Text} {n : Numeral} (h : Written t n) {c : Char} (hc : c ∈ t) :
    9 ≤ c.toNat ∧ c.toNat ≤ 32 ∨ 43 ≤ c.toNat ∧ c.toNat ≤ 122 ∧ c.toNat ≠ 95 := by
  obtain ⟨hbefore, hcore, hafter⟩ := h
  rcases List.mem_append.mp hc with hc | hc
  · rcases List.mem_append.mp hc with hc | hc
    · exact Or.inl (isBlank_bounds (hbefore c hc))
    · exact Or.inr (hcore.mem hc)
  · exact Or.inl (isBlank_bounds (hafter c hc))

/-- A numeral is what is left when the blanks around it are taken away. -/
theorem Spells.stripBy_eq {core : Text} {n : Numeral} (h : Spells core n) {before after : Text}
    (hbefore : ∀ c ∈ before, isBlank c) (hafter : ∀ c ∈ after, isBlank c) :
    Text.stripBy isBlank (before ++ core ++ after) = core := by
  rw [Text.stripBy_append hbefore core hafter]
  apply Text.stripBy_eq_self
  intro c hc
  by_contra hblank
  have hlow := h.mem hc
  have hhigh := isBlank_bounds (Bool.not_eq_false _ ▸ hblank)
  omega

theorem Spells.ne_nil {t : Text} {n : Numeral} (h : Spells t n) : t ≠ [] := by
  cases h with
  | @infinity s w negative hs hw =>
      rw [Ne, List.append_eq_nil_iff]
      rintro ⟨-, rfl⟩
      rcases hw with hw | hw <;> contradiction
  | @nan s w negative hs hw =>
      rw [Ne, List.append_eq_nil_iff]
      rintro ⟨-, rfl⟩
      contradiction
  | decimal hs hm hx => simp [hm.ne_nil]

/-- A numeral may stand alone. -/
theorem Spells.written {t : Text} {n : Numeral} (h : Spells t n) : Written t n := by
  have hblanks : ∀ c ∈ ([] : Text), isBlank c := by simp
  have := Written.intro hblanks h hblanks
  rwa [List.nil_append, List.append_nil] at this

/-- What is read is a numeral between blanks. -/
theorem written_of_read? {t : Text} {n : Numeral} (h : read? t = some n) : Written t n := by
  obtain ⟨before, after, ht, hbefore, hafter⟩ := Text.exists_stripBy isBlank t
  rw [read?] at h
  rcases hsplit : splitSign (Text.stripBy isBlank t) with ⟨negative, r⟩
  obtain ⟨s, hs, hcore⟩ := sign_of_splitSign hsplit
  rw [hcore] at ht
  rw [ht]
  refine .intro hbefore ?_ hafter
  simp only [hsplit] at h
  split at h
  · next hw =>
      cases h
      exact .infinity hs hw
  split at h
  · next hw =>
      cases h
      exact .nan hs hw
  · obtain ⟨m, x, w, f, e, hm, hx, rfl, rfl⟩ := (decimal?_eq_some_iff negative r n).mp h
    exact .decimal hs hm hx

/-- A numeral between blanks is read: the blanks and the sign come off, and which of the three forms
is left shows in its first character. -/
theorem Written.read?_eq {t : Text} {n : Numeral} (h : Written t n) : read? t = some n := by
  obtain ⟨hbefore, hcore, hafter⟩ := h
  rw [read?, hcore.stripBy_eq hbefore hafter]
  cases hcore with
  | @infinity s w negative hs hw =>
      have hsplit : splitSign (s ++ w) = (negative, w) := by
        apply splitSign_of_sign hs
        intro c hc
        have := letter_of_mem_infinity hw (List.mem_of_mem_head? hc)
        omega
      simp only [hsplit]
      rw [if_pos hw]
  | @nan s w negative hs hw =>
      have hsplit : splitSign (s ++ w) = (negative, w) := by
        apply splitSign_of_sign hs
        intro c hc
        have := letter_of_mem_word hw (by decide) (List.mem_of_mem_head? hc)
        omega
      simp only [hsplit, hw]
      rw [if_neg (by decide), if_pos trivial]
  | @decimal s m x w f negative e hs hm hx =>
      have hhead := hm.head x
      have hsplit : splitSign (s ++ (m ++ x)) = (negative, m ++ x) := by
        apply splitSign_of_sign hs
        intro c hc
        exact (hhead c hc).1
      simp only [hsplit]
      rw [if_neg, if_neg, decimal?_eq_some_iff]
      · exact ⟨m, x, w, f, e, hm, hx, rfl, rfl⟩
      · exact not_word_of_head hhead (by decide)
      · rintro (hword | hword)
        · exact not_word_of_head hhead (by decide) hword
        · exact not_word_of_head hhead (by decide) hword

/-- **What is read is what the grammar allows.** -/
theorem read?_eq_some_iff (t : Text) (n : Numeral) : read? t = some n ↔ Written t n :=
  ⟨written_of_read?, Written.read?_eq⟩

end Numeral

/-- **A text is read as a number if and only if it is a numeral between blanks**, which is ASCII
and has no underscore, and the number is what the numeral means: for a decimal, the double closest
to its exact value, ties to even, infinite from the overflow on, and a zero with its sign when it is
too small. -/
theorem Binary64.read?_iff_written (t : Text) :
    ((∃ y, read? t = some y) ↔
        (∀ c ∈ t, c.toNat < 128) ∧ '_' ∉ t ∧ ∃ n, Numeral.Written t n) ∧
      ∀ y, read? t = some y ↔ ∃ n, Numeral.Written t n ∧ Numeral.Means n y := by
  have hread : ∀ y, read? t = some y ↔ ∃ n, Numeral.Written t n ∧ Numeral.Means n y := by
    intro y
    simp only [read?, Option.map_eq_some_iff, Numeral.read?_eq_some_iff, Numeral.means_iff]
  refine ⟨?_, hread⟩
  constructor
  · rintro ⟨y, hy⟩
    obtain ⟨n, hwritten, -⟩ := (hread y).mp hy
    have hchars : ∀ c ∈ t, c.toNat < 128 ∧ c.toNat ≠ 95 := by
      intro c hc
      have := hwritten.mem hc
      omega
    exact ⟨fun c hc => (hchars c hc).1, fun hc => (hchars '_' hc).2 rfl, n, hwritten⟩
  · rintro ⟨-, -, n, hwritten⟩
    exact ⟨n.value, (hread _).mpr ⟨n, hwritten, (Numeral.means_iff n _).mpr rfl⟩⟩

/-- Halfway between two doubles: the result has the even significand. -/
example : Binary64.read? " 9007199254740993 " =
    some (.finite false 0x10000000000000 1 (by decide)) := by
  decide

end MiniLisp
