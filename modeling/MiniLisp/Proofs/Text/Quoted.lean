import Mathlib.Tactic
import MiniLisp.Text.Quoted

set_option autoImplicit false

/-! # Quoted texts show where they end

What stands between quotes can be read again, one character after the other (`unescape`). Behind a
backslash stands the character that is meant, or a letter for it, or a letter that tells how many
digits its code point is given with. The quote that was chosen stands nowhere without a backslash,
so the first one that does is the end.

Hence a quoted text that begins a longer text is told by it, and so is where it ends
(`quoted_append_inj`).
-/

namespace MiniLisp.Text

/-! ## Pieces in a row -/

/-- What stands before a character for the first time is told by the whole. -/
theorem append_cons_inj {c : Char} {s t u v : Text} (hs : c ∉ s) (ht : c ∉ t)
    (h : s ++ c :: u = t ++ c :: v) : s = t ∧ u = v := by
  induction s generalizing t with
  | nil =>
      cases t with
      | nil => exact ⟨rfl, (List.cons.inj h).2⟩
      | cons b t => exact absurd ((List.cons.inj h).1 ▸ List.mem_cons_self) ht
  | cons a s ih =>
      cases t with
      | nil => exact absurd ((List.cons.inj h).1 ▸ List.mem_cons_self) hs
      | cons b t =>
          obtain ⟨rfl, hrest⟩ := List.cons.inj h
          obtain ⟨rfl, huv⟩ := ih (List.not_mem_of_not_mem_cons hs)
            (List.not_mem_of_not_mem_cons ht) hrest
          exact ⟨rfl, huv⟩

/-- Pieces, each of which shows where it ends, are told by the whole if a character follows them
that no piece begins with. -/
theorem flatMap_append_inj {α : Type} {write : α → Text} {stop : Char} {as bs : List α}
    {u v : Text} (hstop : ∀ a r s, write a ++ r ≠ stop :: s)
    (hpiece : ∀ a ∈ as, ∀ b ∈ bs, ∀ r s, write a ++ r = write b ++ s → a = b ∧ r = s)
    (h : as.flatMap write ++ stop :: u = bs.flatMap write ++ stop :: v) : as = bs ∧ u = v := by
  induction as generalizing bs with
  | nil =>
      cases bs with
      | nil => exact ⟨rfl, (List.cons.inj h).2⟩
      -- the character would begin a piece
      | cons b bs =>
          rw [List.flatMap_cons, List.append_assoc] at h
          exact absurd h.symm (hstop b _ _)
  | cons a as ih =>
      cases bs with
      | nil =>
          rw [List.flatMap_cons, List.append_assoc] at h
          exact absurd h (hstop a _ _)
      | cons b bs =>
          rw [List.flatMap_cons, List.flatMap_cons, List.append_assoc, List.append_assoc] at h
          obtain ⟨rfl, hrest⟩ := hpiece a List.mem_cons_self b List.mem_cons_self _ _ h
          obtain ⟨rfl, huv⟩ := ih (fun a' ha' b' hb' =>
            hpiece a' (List.mem_cons_of_mem a ha') b' (List.mem_cons_of_mem a hb')) hrest
          exact ⟨rfl, huv⟩

/-! ## Hexadecimal numbers -/

/-- The value of a hexadecimal digit. -/
def hexDigitValue (c : Char) : ℕ :=
  if c.isDigit then c.toNat - '0'.toNat else c.toNat - 'a'.toNat + 10

/-- The number that hexadecimal digits stand for. -/
def hexadecimalValue (ds : Text) : ℕ := ds.foldl (fun n c => 16 * n + hexDigitValue c) 0

theorem hexDigitValue_digitChar : ∀ n < 16, hexDigitValue (Nat.digitChar n) = n := by
  decide

theorem hexadecimalValue_concat (ds : Text) (c : Char) :
    hexadecimalValue (ds ++ [c]) = 16 * hexadecimalValue ds + hexDigitValue c := by
  rw [hexadecimalValue, List.foldl_append]
  rfl

theorem hexadecimalValue_toDigits (n : ℕ) : hexadecimalValue (Nat.toDigits 16 n) = n := by
  induction n using Nat.strong_induction_on with
  | _ n ih =>
      have hlast : n % 16 < 16 := Nat.mod_lt n (by decide)
      rw [Nat.toDigits_eq_if (by decide)]
      split
      · next hlt =>
          show 16 * 0 + hexDigitValue (Nat.digitChar n) = n
          rw [hexDigitValue_digitChar n hlt]
          omega
      · next hge =>
          rw [hexadecimalValue_concat, ih (n / 16) (by omega), hexDigitValue_digitChar _ hlast]
          omega

theorem hexadecimalValue_hexadecimal (width n : ℕ) :
    hexadecimalValue (hexadecimal width n) = n := by
  have hzeros : ∀ k, (List.replicate k '0').foldl (fun n c => 16 * n + hexDigitValue c) 0 = 0 := by
    intro k
    induction k with
    | zero => rfl
    | succ k ih => exact ih
  rw [hexadecimal, hexadecimalValue, List.foldl_append, hzeros]
  exact hexadecimalValue_toDigits n

theorem length_hexadecimal {width n : ℕ} (hwidth : 0 < width) (h : n < 16 ^ width) :
    (hexadecimal width n).length = width := by
  have hle : (Nat.toDigits 16 n).length ≤ width :=
    (Nat.length_toDigits_le_iff (by decide) hwidth).mpr h
  rw [hexadecimal, List.length_append, List.length_replicate]
  omega

/-- The digits of a number that are read are those that were written. -/
theorem take_hexadecimal_append {width n : ℕ} (hwidth : 0 < width) (h : n < 16 ^ width)
    (r : Text) : (hexadecimal width n ++ r).take width = hexadecimal width n := by
  rw [List.take_append_of_le_length (length_hexadecimal hwidth h).ge, List.take_of_length_le]
  exact (length_hexadecimal hwidth h).le

theorem drop_hexadecimal_append {width n : ℕ} (hwidth : 0 < width) (h : n < 16 ^ width)
    (r : Text) : (hexadecimal width n ++ r).drop width = r :=
  List.drop_left' (length_hexadecimal hwidth h)

/-! ## Characters between quotes -/

/-- The character given by the first digits of a text, as its code point, and what follows. -/
def readCodePoint (width : ℕ) (t : Text) : Char × Text :=
  (Char.ofNat (hexadecimalValue (t.take width)), t.drop width)

/-- The first character of what stands between quotes, and what follows it; there is none where the
end is. -/
def unescape (quote : Char) : Text → Option (Char × Text)
  | '\\' :: 'n' :: r => some ('\n', r)
  | '\\' :: 'r' :: r => some ('\r', r)
  | '\\' :: 't' :: r => some ('\t', r)
  | '\\' :: 'x' :: r => some (readCodePoint 2 r)
  | '\\' :: 'u' :: r => some (readCodePoint 4 r)
  | '\\' :: 'U' :: r => some (readCodePoint 8 r)
  | '\\' :: c :: r => some (c, r)
  | c :: r => if c = quote then none else some (c, r)
  | [] => none

theorem readCodePoint_hexadecimal {width : ℕ} {c : Char} (hwidth : 0 < width)
    (h : c.toNat < 16 ^ width) (r : Text) :
    readCodePoint width (hexadecimal width c.toNat ++ r) = (c, r) := by
  rw [readCodePoint, take_hexadecimal_append hwidth h, drop_hexadecimal_append hwidth h,
    hexadecimalValue_hexadecimal, Char.ofNat_toNat]

theorem unescape_codePoint (quote c : Char) (r : Text) :
    unescape quote (codePoint c ++ r) = some (c, r) := by
  have hc : c.toNat < 0x110000 := c.valid.elim (fun h => h.trans (by decide)) (fun h => h.2)
  simp only [codePoint]
  split
  · next h => exact congrArg some (readCodePoint_hexadecimal (by decide) h r)
  split
  · next h => exact congrArg some (readCodePoint_hexadecimal (by decide) h r)
  · exact congrArg some (readCodePoint_hexadecimal (by decide) (by omega) r)

theorem unescape_self {quote c : Char} (hquote : c ≠ quote) (hbackslash : c ≠ '\\') (r : Text) :
    unescape quote (c :: r) = some (c, r) := by
  unfold unescape
  split
  all_goals simp_all

/-- **A character between quotes is read again.** -/
theorem unescape_escaped {quote : Char} (hquote : quote = '\'' ∨ quote = '"') (c : Char)
    (r : Text) : unescape quote (escaped quote c ++ r) = some (c, r) := by
  unfold escaped
  split
  -- the quotes and the backslash are no letters that stand for something else
  · next hc =>
      rcases hc with rfl | rfl
      · rcases hquote with rfl | rfl <;> rfl
      · rfl
  · next hc =>
      split
      · next h => rw [h]; rfl
      split
      · next h => rw [h]; rfl
      split
      · next h => rw [h]; rfl
      split
      · exact unescape_self (fun h => hc (Or.inl h)) (fun h => hc (Or.inr h)) r
      · exact unescape_codePoint quote c r

theorem unescape_quote {quote : Char} (hquote : quote = '\'' ∨ quote = '"') (r : Text) :
    unescape quote (quote :: r) = none := by
  rcases hquote with rfl | rfl <;> rfl

/-! ## Quoted texts -/

theorem quoteFor_cases (t : Text) : quoteFor t = '\'' ∨ quoteFor t = '"' := by
  unfold quoteFor
  split
  · exact Or.inr rfl
  · exact Or.inl rfl

/-- **A quoted text shows where it ends and what it holds.** -/
theorem quoted_append_inj {s t u v : Text} (h : quoted s ++ u = quoted t ++ v) : s = t ∧ u = v := by
  have hquote := quoteFor_cases t
  simp only [quoted, List.cons_append, List.append_assoc, List.nil_append] at h
  -- the texts begin with their quotes, so both have the same
  obtain ⟨hsame, h⟩ := List.cons.inj h
  rw [hsame] at h
  apply flatMap_append_inj _ _ h
  -- the end is no character, and every character is read again
  · intro c r s hc
    have hread := unescape_escaped hquote c r
    rw [hc, unescape_quote hquote] at hread
    contradiction
  · intro c _ d _ r s hcd
    have hread := unescape_escaped hquote c r
    rw [hcd, unescape_escaped hquote d s] at hread
    obtain ⟨rfl, rfl⟩ := Prod.mk.inj (Option.some.inj hread)
    exact ⟨rfl, rfl⟩

end MiniLisp.Text
