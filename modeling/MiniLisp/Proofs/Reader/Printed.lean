import MiniLisp.Expr.Display
import MiniLisp.Reader
import MiniLisp.Proofs.Expr.Equality
import MiniLisp.Proofs.Number.Notation
import MiniLisp.Proofs.Reader.Tokens

set_option autoImplicit false

/-! # The tokens of a printed expression

An expression that is no list is *plain* if its text is one whole token, no parenthesis, and the
expression of this token is the expression again. An expression is *readable* if all its leaves
are plain. What single tokens are read as is plain (`plain_atom`): the text of a number may differ
from the token that it was read from, but is a numeral of the same number. Two weaker properties are
needed beside this one. To be *settled* asks nothing of the characters of the text, so it can be
said of tokens that no text has. To stand *alone* is also a property of a token that is cut off: its
text is a single token only where nothing follows it.

The tokens of the text of a readable expression are the texts of its leaves, in parentheses as the
lists are (`Expr.tokens`), wherever the text stands (`tokenize_display_append`).
-/

namespace MiniLisp

/-! ## Atoms -/

theorem atom_ne_list (t : Token) (es : List Expr) : atom t ≠ .list es := by
  unfold atom
  intro h
  split at h
  · contradiction
  split at h
  · contradiction
  split at h
  · contradiction
  split at h <;> contradiction

theorem foreign?_atom (t : Token) : (atom t).foreign? = none := by
  unfold atom
  split
  · rfl
  split
  · rfl
  split
  · rfl
  split <;> rfl

theorem leaves_atom (t : Token) : (atom t).leaves = [atom t] := by
  cases h : atom t with
  | list es => exact absurd h (atom_ne_list t es)
  | _ => rfl

/-- A string is its token without the quotes. -/
theorem quoted_eq {t : Token} (h : isQuoted t) : '"' :: (t.tail.dropLast ++ ['"']) = t := by
  simp only [isQuoted, Bool.and_eq_true, decide_eq_true_eq] at h
  obtain ⟨⟨hlength, hhead⟩, hlast⟩ := h
  obtain ⟨r, rfl⟩ : ∃ r, t = '"' :: r := List.head?_eq_some_iff.mp hhead
  -- the quote at the end is not the one at the start
  have hr : r ≠ [] := by
    rintro rfl
    simp at hlength
  have hend : r.getLast hr = '"' := by
    rw [List.getLast?_cons, List.getLast?_eq_some_getLast hr] at hlast
    simpa using hlast
  rw [List.tail_cons, ← hend, List.dropLast_append_getLast]

/-- What is shown of a token is the token, or a number. -/
theorem display_atom (t : Token) : (atom t).display = t ∨ ∃ x, atom t = .num x := by
  unfold atom
  split
  · next h => exact Or.inl h.symm
  split
  · next h => exact Or.inl h.symm
  split
  · next h => exact Or.inl (quoted_eq h)
  split
  · exact Or.inr ⟨_, rfl⟩
  · exact Or.inl rfl

/-- The text of a number is read as the number. -/
theorem atom_display_num (x : Binary64) : atom x.display = .num x := by
  -- the words that are read before numbers are no numerals
  have hread := Binary64.read?_display x
  have htrue : x.display ≠ ("true" : Text) := by
    intro h
    rw [h, show Binary64.read? ("true" : Text) = none by decide] at hread
    contradiction
  have hfalse : x.display ≠ ("false" : Text) := by
    intro h
    rw [h, show Binary64.read? ("false" : Text) = none by decide] at hread
    contradiction
  have hquoted : ¬ isQuoted x.display := by
    intro h
    have := Binary64.toNat_of_mem_display (x := x) (c := '"') (by rw [← quoted_eq h]; simp)
    simp at this
  rw [atom, if_neg htrue, if_neg hfalse, if_neg hquoted, hread]

/-! ## Settled, plain and readable expressions -/

/-- An expression whose text, taken as a token, is no parenthesis and is read as the expression. -/
structure Settled (e : Expr) : Prop where
  not_open : e.display ≠ ['(']
  not_close : e.display ≠ [')']
  atom_display : atom e.display = e

/-- An expression whose text is one whole token and is read as the expression. -/
structure Plain (e : Expr) : Prop where
  whole : Whole e.display
  not_open : e.display ≠ ['(']
  not_close : e.display ≠ [')']
  atom_display : atom e.display = e

namespace Settled

variable {e : Expr}

theorem leaves_eq (h : Settled e) : e.leaves = [e] := by
  rw [← h.atom_display]
  exact leaves_atom e.display

theorem foreign?_eq_none (h : Settled e) : e.foreign? = none := by
  rw [← h.atom_display]
  exact foreign?_atom e.display

end Settled

theorem Plain.settled {e : Expr} (h : Plain e) : Settled e :=
  ⟨h.not_open, h.not_close, h.atom_display⟩

theorem Plain.foreign?_eq_none {e : Expr} (h : Plain e) : e.foreign? = none :=
  h.settled.foreign?_eq_none

theorem plain_bool (b : Bool) : Plain (.bool b) := by
  cases b with
  | true => exact ⟨Or.inr rfl, by decide, by decide, rfl⟩
  | false => exact ⟨Or.inr rfl, by decide, by decide, rfl⟩

theorem plain_num (x : Binary64) : Plain (.num x) := by
  have hchars : ∀ c ∈ x.display, 43 ≤ c.toNat ∧ c.toNat ≤ 122 :=
    fun c hc => Binary64.toNat_of_mem_display hc
  refine ⟨?_, ?_, ?_, atom_display_num x⟩
  · apply whole_word (Binary64.display_ne_nil x)
    · intro c hc
      have hparen : isParen c = false := by
        rw [← Bool.not_eq_true, isParen_iff]
        rintro (rfl | rfl)
        · simpa using hchars _ hc
        · simpa using hchars _ hc
      rw [delimits, hparen, Binary64.not_isBlank_of_mem_display hc]
      rfl
    · intro h
      simpa using hchars _ (List.mem_of_mem_head? h)
  · intro h
    have hmem : '(' ∈ x.display := by
      rw [show x.display = ['('] from h]
      simp
    simpa using hchars _ hmem
  · intro h
    have hmem : ')' ∈ x.display := by
      rw [show x.display = [')'] from h]
      simp
    simpa using hchars _ hmem

/-- What a token is read as is settled, unless the token is a parenthesis. -/
theorem settled_atom {t : Token} (hopen : t ≠ ['(']) (hclose : t ≠ [')']) : Settled (atom t) := by
  rcases display_atom t with h | ⟨x, h⟩
  -- what is shown is the token itself, so all that is asked of it is known
  · refine ⟨?_, ?_, ?_⟩
    · rwa [h]
    · rwa [h]
    · rw [h]
  · rw [h]
    exact (plain_num x).settled

/-- **What a whole token is read as is plain**, unless the token is a parenthesis. -/
theorem plain_atom {t : Token} (ht : Whole t) (hopen : t ≠ ['(']) (hclose : t ≠ [')']) :
    Plain (atom t) := by
  rcases display_atom t with h | ⟨x, h⟩
  · obtain ⟨hopen, hclose, hatom⟩ := settled_atom hopen hclose
    exact ⟨by rwa [h], hopen, hclose, hatom⟩
  · rw [h]
    exact plain_num x

/-- An expression whose text, on its own, is a single token, which is read as the expression. -/
structure Alone (e : Expr) : Prop where
  tokenize_display : tokenize e.display = [e.display]
  not_open : e.display ≠ ['(']
  atom_display : atom e.display = e

theorem tokenize_whole {t : Token} (ht : Whole t) : tokenize t = [t] := by
  have := tokenize_whole_append (u := []) ht (by simp)
  rwa [List.append_nil, show tokenize [] = [] from rfl] at this

theorem Plain.alone {e : Expr} (h : Plain e) : Alone e :=
  ⟨tokenize_whole h.whole, h.not_open, h.atom_display⟩

theorem alone_atom {t : Token} (ht : Whole t) (hopen : t ≠ ['(']) : Alone (atom t) := by
  rcases display_atom t with h | ⟨x, h⟩
  · refine ⟨?_, ?_, ?_⟩
    · rw [h, tokenize_whole ht]
    · rwa [h]
    · rw [h]
  -- a number may be shown in another way than it was written
  · rw [h]
    exact (plain_num x).alone

theorem Alone.foreign?_eq_none {e : Expr} (h : Alone e) : e.foreign? = none := by
  rw [← h.atom_display]
  exact foreign?_atom e.display

/-- An expression all of whose leaves are plain. -/
def Readable (e : Expr) : Prop := ∀ l ∈ e.leaves, Plain l

theorem Plain.readable {e : Expr} (h : Plain e) : Readable e := by
  intro l hl
  rw [h.settled.leaves_eq, List.mem_singleton] at hl
  rwa [hl]

theorem readable_list {es : List Expr} : Readable (.list es) ↔ ∀ e ∈ es, Readable e :=
  Expr.forall_leaves_list

theorem Readable.foreign?_eq_none {e : Expr} (h : Readable e) : e.foreign? = none :=
  Expr.foreign?_eq_none (fun l hl => (h l hl).foreign?_eq_none)

/-! ## Tokens -/

namespace Expr

mutual

/-- The texts of the leaves of an expression, and the parentheses of its lists. -/
def tokens : Expr → List Token
  | .list es => ['('] :: (tokensOfItems es ++ [[')']])
  | e => [e.display]

/-- The tokens of expressions, one after the other. -/
def tokensOfItems : List Expr → List Token
  | [] => []
  | e :: es => tokens e ++ tokensOfItems es

end

end Expr

theorem Settled.tokens_eq {e : Expr} (h : Settled e) : e.tokens = [e.display] := by
  cases e with
  | list es =>
      have := h.atom_display
      exact absurd this (atom_ne_list _ es)
  | _ => rfl

/-- An expression whose text has its tokens in front of whatever may follow it in a list. -/
def Spelled (e : Expr) : Prop :=
  ∀ u : Text, (∀ c ∈ u.head?, delimits c) → tokenize (e.display ++ u) = e.tokens ++ tokenize u

theorem tokenize_displayItems_append {es : List Expr} (hes : ∀ e ∈ es, Spelled e) {u : Text}
    (hu : ∀ c ∈ u.head?, delimits c) :
    tokenize (Expr.displayItems es ++ u) = Expr.tokensOfItems es ++ tokenize u := by
  induction es with
  | nil => rfl
  | cons e es ih =>
      have he : Spelled e := hes e (by simp)
      have hrest := ih (fun f hf => hes f (by simp [hf]))
      cases es with
      | nil =>
          rw [Expr.displayItems, he u hu]
          simp [Expr.tokensOfItems]
      | cons f es =>
          have hblank : ∀ c ∈ (' ' :: (Expr.displayItems (f :: es) ++ u)).head?, delimits c := by
            rintro c ⟨⟩
            rfl
          rw [Expr.displayItems, List.append_assoc, List.cons_append, he _ hblank,
            tokenize_blank (by decide), hrest, ← List.append_assoc]
          rfl

/-- The last item of a list need not be spelled to have the tokens of the items before it. -/
theorem tokenize_displayItems_concat {es : List Expr} (hes : ∀ e ∈ es, Spelled e) (f : Expr)
    (u : Text) :
    tokenize (Expr.displayItems (es ++ [f]) ++ u) =
      Expr.tokensOfItems es ++ tokenize (f.display ++ u) := by
  induction es with
  | nil => rfl
  | cons e es ih =>
      have he : Spelled e := hes e (by simp)
      have hrest := ih (fun f hf => hes f (by simp [hf]))
      have hblank : ∀ c ∈ (' ' :: (Expr.displayItems (es ++ [f]) ++ u)).head?, delimits c := by
        rintro c ⟨⟩
        rfl
      have hsplit : Expr.displayItems (e :: es ++ [f]) =
          e.display ++ ' ' :: Expr.displayItems (es ++ [f]) := by
        cases es <;> rfl
      rw [hsplit, List.append_assoc, List.cons_append, he _ hblank,
        tokenize_blank (by decide), hrest, Expr.tokensOfItems, List.append_assoc]

/-- **The text of a readable expression has its tokens**, whatever follows it in a list. -/
theorem Readable.spelled {e : Expr} (h : Readable e) : Spelled e := by
  induction h using Expr.leaves_induction with
  | leaf e _ he =>
      intro u hu
      rw [tokenize_whole_append he.whole hu, he.settled.tokens_eq]
      rfl
  | list es hes ih =>
      intro u hu
      have hclose : ∀ c ∈ (')' :: u).head?, delimits c := by
        rintro c ⟨⟩
        rfl
      rw [Expr.display, List.cons_append, List.append_assoc, tokenize_paren rfl,
        List.cons_append, List.nil_append, tokenize_displayItems_append ih hclose,
        tokenize_paren rfl, Expr.tokens]
      simp

theorem tokenize_display {e : Expr} (h : Readable e) : tokenize e.display = e.tokens := by
  have := h.spelled [] (by simp)
  rwa [List.append_nil, show tokenize [] = [] from rfl, List.append_nil] at this

end MiniLisp
