import Mathlib.Data.List.TakeWhile
import MiniLisp.Proofs.Reader.Written

set_option autoImplicit false

/-! # The grammar of tokens

The tokens of a text can be told without remembering anything between them: blanks are passed over,
and the token that the text then starts with is

* a parenthesis, or
* at a double quote, what stands through the next double quote that no backslash stands directly
  before, or all of the text if there is none, or else
* as many characters as follow one another without a blank or a parenthesis.

`Begins` says this of the first token and `Tokens` of all of them. Every text has just one list of
tokens by this grammar, and it is the one that reading the text character by character gives
(`tokenize_eq_iff`).
-/

namespace MiniLisp

/-! ## The grammar -/

/-- Whether a text that starts with a double quote leaves its string open: a backslash stands
directly before every other double quote. -/
def Unended (s : Text) : Prop :=
  ∀ before after, s = before ++ '"' :: after → before ≠ [] → before.getLast? = some '\\'

/-- The token that a text starts with, and the text behind it. -/
inductive Begins : Text → Token → Text → Prop
  | paren {c : Char} (hc : isParen c) (t : Text) : Begins (c :: t) [c] t
  | string {s : Text} (hs : Unended ('"' :: s)) (hend : ('"' :: s).getLast? ≠ some '\\')
      (t : Text) :
      Begins ('"' :: (s ++ '"' :: t)) ('"' :: (s ++ ['"'])) t
  | cutOff {s : Text} (hs : Unended ('"' :: s)) : Begins ('"' :: s) ('"' :: s) []
  | word {w t : Text} (hne : w ≠ []) (hhead : w.head? ≠ some '"')
      (hchars : ∀ c ∈ w, delimits c = false) (hend : ∀ c ∈ t.head?, delimits c) :
      Begins (w ++ t) w t

/-- The tokens of a text. -/
inductive Tokens : Text → List Token → Prop
  | nil {w : Text} (hw : ∀ c ∈ w, Text.isBlank c) : Tokens w []
  | cons {w t rest : Text} {u : Token} {ts : List Token} (hw : ∀ c ∈ w, Text.isBlank c)
      (hfirst : Begins t u rest) (hrest : Tokens rest ts) : Tokens (w ++ t) (u :: ts)

/-! ## Reading by the grammar -/

/-- A string is read on while it is unended. -/
theorem Unended.run {s : Text} (hs : Unended ('"' :: s)) :
    Scan.run .gap ('"' :: s) = ([], .quoted ('"' :: s).reverse) := by
  have hopen : Scan.run .gap ['"'] = ([], .quoted ['"']) := rfl
  have hinside : Scan.run (.quoted ['"']) s = ([], .quoted (s.reverse ++ ['"'])) := by
    apply run_escaped
    intro before after h
    rw [← List.reverse_cons, List.head?_reverse]
    exact hs ('"' :: before) after (by rw [h, List.cons_append]) (by simp)
  rw [← List.singleton_append, Scan.run_append, hopen, hinside]
  simp

/-- The first token is read as the grammar tells, whatever follows it. -/
theorem tokenize_of_begins {t rest : Text} {u : Token} (h : Begins t u rest) :
    tokenize t = u :: tokenize rest := by
  cases h with
  | paren hc t => exact tokenize_paren hc rest
  | @string s hs hend t =>
      have hlast : Scan.run (.quoted ('"' :: s).reverse) ['"'] = (['"' :: (s ++ ['"'])], .gap) := by
        rw [Scan.run, Scan.step, List.head?_reverse, if_pos ⟨rfl, hend⟩]
        simp [Scan.run]
      have hrun : Scan.run .gap ('"' :: (s ++ ['"'])) = (['"' :: (s ++ ['"'])], .gap) := by
        rw [← List.cons_append, Scan.run_append, hs.run, hlast]
        rfl
      have hsplit : '"' :: (s ++ '"' :: rest) = '"' :: (s ++ ['"']) ++ rest := by simp
      rw [hsplit, tokenize, Scan.run_append, hrun]
      rfl
  | @cutOff s hs =>
      have hcut : CutOff ('"' :: s) := ⟨hs.run, rfl⟩
      exact hcut.tokenize_self
  | @word w t hne hhead hchars hend =>
      exact tokenize_whole_append (whole_word hne hchars hhead) hend

theorem tokenize_blanks {w : Text} (hw : ∀ c ∈ w, Text.isBlank c) : tokenize w = [] := by
  have := tokenize_blanks_append hw []
  rwa [List.append_nil] at this

theorem Tokens.tokenize_eq {t : Text} {ts : List Token} (h : Tokens t ts) : tokenize t = ts := by
  induction h with
  | nil hw => exact tokenize_blanks hw
  | @cons w t rest u ts hw hfirst hrest ih =>
      calc tokenize (w ++ t) = tokenize t := tokenize_blanks_append hw t
        _ = u :: tokenize rest := tokenize_of_begins hfirst
        _ = u :: ts := by rw [ih]

/-! ## Every text has tokens -/

/-- A string that is open goes on to the end of the text, or to the first quote that ends it. -/
theorem unended_or_ends {s : Text} (hs : Unended ('"' :: s)) (t : Text) :
    Unended ('"' :: (s ++ t)) ∨
      ∃ v rest, t = v ++ '"' :: rest ∧ Unended ('"' :: (s ++ v)) ∧
        ('"' :: (s ++ v)).getLast? ≠ some '\\' := by
  induction t generalizing s with
  | nil =>
      rw [List.append_nil]
      exact Or.inl hs
  | cons c t ih =>
      by_cases hc : c = '"' ∧ ('"' :: s).getLast? ≠ some '\\'
      · obtain ⟨rfl, hlast⟩ := hc
        exact Or.inr ⟨[], t, rfl, by rwa [List.append_nil], by rwa [List.append_nil]⟩
      -- the next character does not end the string, so it belongs to it
      · have hnext : Unended ('"' :: (s ++ [c])) := by
          intro before after h hne
          rw [← List.cons_append] at h
          rcases List.eq_nil_or_concat after with rfl | ⟨after, d, rfl⟩
          · obtain ⟨hbefore, hquote⟩ := List.append_inj' h rfl
            rw [← hbefore]
            by_contra hlast
            exact hc ⟨List.singleton_inj.mp hquote, hlast⟩
          · rw [List.concat_eq_append, ← List.cons_append, ← List.append_assoc] at h
            obtain ⟨hbefore, -⟩ := List.append_inj' h rfl
            exact hs before after hbefore hne
        have hsplit : ∀ v, s ++ [c] ++ v = s ++ c :: v := by simp
        rcases ih hnext with h | ⟨v, rest, rfl, hopen, hlast⟩
        · rw [hsplit] at h
          exact Or.inl h
        · rw [hsplit] at hopen hlast
          exact Or.inr ⟨c :: v, rest, rfl, hopen, hlast⟩

/-- A word goes on as long as no blank and no parenthesis comes. -/
theorem begins_word {c : Char} (hc : delimits c = false) (hquote : c ≠ '"') (t : Text) :
    Begins (c :: t) (c :: t.takeWhile (fun d => !delimits d))
      (t.dropWhile (fun d => !delimits d)) := by
  have hchars : ∀ d ∈ c :: t.takeWhile (fun d => !delimits d), delimits d = false := by
    refine List.forall_mem_cons.mpr ⟨hc, fun d hd => ?_⟩
    simpa using List.mem_takeWhile_imp hd
  have hend : ∀ d ∈ (t.dropWhile (fun d => !delimits d)).head?, delimits d := by
    intro d hd
    have := List.head?_dropWhile_not (fun d => !delimits d) t
    rw [hd] at this
    simpa using this
  have hsplit : c :: t = c :: t.takeWhile (fun d => !delimits d) ++
      t.dropWhile (fun d => !delimits d) := by
    rw [List.cons_append, List.takeWhile_append_dropWhile]
  rw [hsplit]
  refine .word (List.cons_ne_nil _ _) ?_ hchars hend
  rw [List.head?_cons, Ne, Option.some.injEq]
  exact hquote

/-- A text that starts with no blank starts with a token, and the rest of it is shorter. -/
theorem exists_begins {c : Char} (hc : Text.isBlank c = false) (t : Text) :
    ∃ u rest, Begins (c :: t) u rest ∧ rest.length ≤ t.length := by
  by_cases hparen : isParen c
  · exact ⟨_, _, .paren hparen t, le_refl _⟩
  by_cases hquote : c = '"'
  · subst hquote
    have hstart : Unended ['"'] := by
      intro before after h hne
      obtain ⟨d, before, rfl⟩ := List.exists_cons_of_ne_nil hne
      have := congrArg List.length h
      simp at this
    rcases unended_or_ends hstart t with h | ⟨v, rest, rfl, hopen, hlast⟩
    · exact ⟨_, _, .cutOff h, Nat.zero_le _⟩
    · refine ⟨_, _, .string hopen hlast rest, ?_⟩
      simp only [List.length_append, List.length_cons]
      omega
  · have hword : delimits c = false := by simp [delimits, hparen, hc]
    exact ⟨_, _, begins_word hword hquote t, (List.dropWhile_suffix _).length_le⟩

theorem exists_tokens (t : Text) : ∃ ts, Tokens t ts := by
  match ht : t.dropWhile Text.isBlank with
  | [] =>
      refine ⟨[], .nil ?_⟩
      intro c hc
      exact List.dropWhile_eq_nil_iff.mp ht c hc
  | c :: r =>
      have hblank : Text.isBlank c = false := by
        have := List.head?_dropWhile_not Text.isBlank t
        rw [ht] at this
        simpa using this
      have hlength : (c :: r).length ≤ t.length := by
        rw [← ht]
        exact (List.dropWhile_suffix _).length_le
      obtain ⟨u, rest, hbegins, hrest⟩ := exists_begins hblank r
      obtain ⟨ts, hts⟩ := exists_tokens rest
      have hcons : Tokens (t.takeWhile Text.isBlank ++ c :: r) (u :: ts) :=
        .cons (fun d hd => List.mem_takeWhile_imp hd) hbegins hts
      rw [← ht, List.takeWhile_append_dropWhile] at hcons
      exact ⟨_, hcons⟩
  termination_by t.length
  decreasing_by
    rw [List.length_cons] at hlength
    omega

/-! ## Nothing is lost -/

/-- The text is the given tokens, in order and none of them empty, with blanks or nothing before,
between and behind them. -/
inductive Laid : List Token → Text → Prop
  | nil {w : Text} (hw : ∀ c ∈ w, Text.isBlank c) : Laid [] w
  | cons {w t : Text} {u : Token} {ts : List Token} (hw : ∀ c ∈ w, Text.isBlank c) (hu : u ≠ [])
      (hrest : Laid ts t) : Laid (u :: ts) (w ++ u ++ t)

theorem Begins.eq_append {t rest : Text} {u : Token} (h : Begins t u rest) :
    t = u ++ rest ∧ u ≠ [] := by
  cases h with
  | paren hc t => exact ⟨rfl, by simp⟩
  | string hs hend t => exact ⟨by simp, by simp⟩
  | cutOff hs => exact ⟨by simp, by simp⟩
  | word hne hhead hchars hend => exact ⟨rfl, hne⟩

theorem Tokens.laid {t : Text} {ts : List Token} (h : Tokens t ts) : Laid ts t := by
  induction h with
  | nil hw => exact .nil hw
  | @cons w t rest u ts hw hfirst hrest ih =>
      obtain ⟨rfl, hu⟩ := hfirst.eq_append
      rw [← List.append_assoc]
      exact .cons hw hu ih

/-- The characters that are no blanks are those of the tokens. -/
theorem Laid.filter_eq {ts : List Token} {t : Text} (h : Laid ts t) :
    t.filter (fun c => !Text.isBlank c) = ts.flatten.filter (fun c => !Text.isBlank c) := by
  have hblanks : ∀ w : Text, (∀ c ∈ w, Text.isBlank c) →
      w.filter (fun c => !Text.isBlank c) = [] := by
    intro w hw
    rw [List.filter_eq_nil_iff]
    intro c hc
    simp [hw c hc]
  induction h with
  | nil hw => exact hblanks _ hw
  | cons hw hu hrest ih =>
      rw [List.filter_append, List.filter_append, hblanks _ hw, List.nil_append, ih,
        List.flatten_cons, List.filter_append]

/-- **Reading computes the grammar of tokens.** A list of tokens is read from a text if and only if
it is the list that the grammar tells. So the text is its tokens, in order and none of them empty,
with blanks or nothing around them, and every character that is no blank is found in them, once and
in its place. -/
theorem tokenize_eq_iff (t : Text) :
    (∀ ts, tokenize t = ts ↔ Tokens t ts) ∧ Laid (tokenize t) t ∧
      t.filter (fun c => !Text.isBlank c) =
        (tokenize t).flatten.filter (fun c => !Text.isBlank c) := by
  obtain ⟨us, hus⟩ := exists_tokens t
  have hread : Tokens t (tokenize t) := by
    rwa [hus.tokenize_eq]
  refine ⟨fun ts => ⟨?_, Tokens.tokenize_eq⟩, hread.laid, hread.laid.filter_eq⟩
  rintro rfl
  exact hread

end MiniLisp
