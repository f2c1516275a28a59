import MiniLisp.Proofs.Reader.Reading

set_option autoImplicit false

/-! # Texts read in pieces

A piece of a text is *complete* if it does not end inside a string, closes every list that it
opens, and can be read to its end. With blanks between a complete piece and what follows it, each
is read as it is on its own (`Complete.readText_append`): the tokens of the whole are those of the
piece and then those of what follows, and no list of the piece takes a token behind it in.

The lists that are open are counted as the reader sees them. A closing parenthesis where no list is
open closes none; it is a symbol.
-/

namespace MiniLisp

/-! ## Tokens -/

/-- Blanks in front of a text have no tokens. -/
theorem Scan.run_blanks {w : Text} (hw : ∀ c ∈ w, Text.isBlank c) :
    Scan.run .gap w = ([], .gap) := by
  induction w with
  | nil => rfl
  | cons c w ih =>
      have hstep : Scan.step .gap c = ([], .gap) := enter_blank (hw c (by simp))
      have hrest := ih (fun d hd => hw d (by simp [hd]))
      simp [Scan.run, hstep, hrest]

/-- Blanks end a word, and leave nothing unfinished. -/
theorem Scan.run_blanks_of_not_quoted {s : Scan} (hs : ∀ r, s ≠ .quoted r) {w : Text} (hne : w ≠ [])
    (hw : ∀ c ∈ w, Text.isBlank c) : Scan.run s w = (s.finish, .gap) := by
  cases s with
  | gap => exact run_blanks hw
  | quoted r => exact absurd rfl (hs r)
  | word r =>
      obtain ⟨c, w, rfl⟩ := List.exists_cons_of_ne_nil hne
      have hc : Text.isBlank c := hw c (by simp)
      have hrest : Scan.run .gap w = ([], .gap) := run_blanks (fun d hd => hw d (by simp [hd]))
      have hstep : Scan.step (.word r) c = ([r.reverse], .gap) := by
        simp [Scan.step, hc, enter_blank hc]
      simp [Scan.run, hstep, hrest, Scan.finish]

/-- The tokens of a text that does not end inside a string are found again in front of blanks. -/
theorem tokenize_append_blanks {t w : Text} (ht : endsQuoted t = false) (hne : w ≠ [])
    (hw : ∀ c ∈ w, Text.isBlank c) (u : Text) :
    tokenize (t ++ w ++ u) = tokenize t ++ tokenize u := by
  have hs : ∀ r, (Scan.run .gap t).2 ≠ .quoted r := by
    intro r hr
    rw [endsQuoted, hr] at ht
    contradiction
  simp [tokenize, Scan.run_append, Scan.run_blanks_of_not_quoted hs hne hw]

/-! ## Open lists -/

/-- The number of lists that are open behind some tokens, where so many are open in front of
them. -/
def openAfter : ℕ → List Token → ℕ
  | n, [] => n
  | n, t :: ts => openAfter (if t = ['('] then n + 1 else if t = [')'] then n - 1 else n) ts

/-- The number of lists that a text opens and does not close. -/
def openLists (t : Text) : ℕ := openAfter 0 (tokenize t)

theorem openAfter_of_ne {t : Token} (hopen : t ≠ ['(']) (hclose : t ≠ [')']) (n : ℕ)
    (ts : List Token) : openAfter n (t :: ts) = openAfter n ts := by
  rw [openAfter, if_neg hopen, if_neg hclose]

/-- A group that is closed in some tokens takes nothing that stands behind them. -/
theorem splitGroup_append (level : ℕ) {ts : List Token} (h : openAfter (level + 1) ts = 0)
    (us : List Token) :
    splitGroup level (ts ++ us) = ((splitGroup level ts).1, (splitGroup level ts).2 ++ us) ∧
      openAfter 0 (splitGroup level ts).2 = 0 := by
  induction ts generalizing level with
  | nil => contradiction
  | cons t ts ih =>
      by_cases hopen : t = ['(']
      · subst hopen
        obtain ⟨hsplit, hafter⟩ := ih (level + 1) h
        rw [List.cons_append, splitGroup_open, splitGroup_open, hsplit]
        exact ⟨rfl, hafter⟩
      by_cases hclose : t = [')']
      · subst hclose
        cases level with
        | zero =>
            rw [List.cons_append, splitGroup_end, splitGroup_end]
            exact ⟨rfl, h⟩
        | succ level =>
            obtain ⟨hsplit, hafter⟩ := ih level h
            rw [List.cons_append, splitGroup_close, splitGroup_close, hsplit]
            exact ⟨rfl, hafter⟩
      · rw [openAfter_of_ne hopen hclose] at h
        obtain ⟨hsplit, hafter⟩ := ih level h
        rw [List.cons_append, splitGroup_of_ne hopen hclose, splitGroup_of_ne hopen hclose, hsplit]
        exact ⟨rfl, hafter⟩

/-! ## Reading -/

/-- The first expression of tokens that close their lists is the same in front of others. -/
theorem readExpr_append {limit : ℤ} {t : Token} {ts rest : List Token} {e : Expr}
    (h : readExpr limit 0 (t :: ts) = (.ok (some e), rest)) (hopen : openAfter 0 (t :: ts) = 0)
    (us : List Token) :
    readExpr limit 0 (t :: (ts ++ us)) = (.ok (some e), rest ++ us) ∧ openAfter 0 rest = 0 := by
  rcases readExpr_cases h with ⟨ht, rfl, rfl⟩ | ⟨rfl, hlt, items, hitems, rfl, rfl⟩
  · refine ⟨readExpr_atom ht limit 0 (rest ++ us), ?_⟩
    by_cases hclose : t = [')']
    · subst hclose
      exact hopen
    · rwa [openAfter_of_ne ht hclose] at hopen
  · obtain ⟨hsplit, hafter⟩ := splitGroup_append 0 hopen us
    exact ⟨readExpr_group hlt hsplit hitems, hafter⟩

/-- Tokens that close their lists and can be read are read as they are in front of others. -/
theorem readTokens_append {limit : ℤ} {ts : List Token} (hopen : openAfter 0 ts = 0)
    (hread : (readTokens limit ts).refused = none) (us : List Token) :
    readTokens limit (ts ++ us) =
      ⟨(readTokens limit ts).exprs ++ (readTokens limit us).exprs,
        (readTokens limit us).refused⟩ := by
  induction ts using readTokens.induct limit with
  | case1 => rw [readTokens]; rfl
  | case2 t ts c rest _ h =>
      rw [readTokens_of_error h] at hread
      contradiction
  | case3 t ts rest _ h => exact absurd h (readExpr_ne_none limit 0 t ts rest)
  | case4 t ts e rest _ h ih =>
      obtain ⟨happend, hrest⟩ := readExpr_append h hopen us
      rw [readTokens_of_readExpr h] at hread ⊢
      rw [List.cons_append, readTokens_of_readExpr happend, ih hrest hread]
      rfl

/-- Whether a text can be read to its end and nothing is left unfinished there: no string and no
list. -/
structure Complete (limit : ℤ) (t : Text) : Prop where
  not_quoted : endsQuoted t = false
  closed : openLists t = 0
  read : (readText limit t).refused = none

/-- **A complete text and what follows it behind blanks** are read as each is on its own. -/
theorem Complete.readText_append {limit : ℤ} {t w : Text} (ht : Complete limit t) (hne : w ≠ [])
    (hw : ∀ c ∈ w, Text.isBlank c) (u : Text) :
    readText limit (t ++ w ++ u) =
      ⟨(readText limit t).exprs ++ (readText limit u).exprs, (readText limit u).refused⟩ := by
  rw [readText, tokenize_append_blanks ht.not_quoted hne hw]
  exact readTokens_append ht.closed ht.read (tokenize u)

end MiniLisp
