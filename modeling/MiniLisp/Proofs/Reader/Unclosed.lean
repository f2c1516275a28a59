import MiniLisp.Proofs.Reader.Groups

set_option autoImplicit false

/-! # Expressions that the end of a text breaks off

Where a text ends inside a string, the lists that are open there end as well. What is read is a
list whose last item is a list whose last item ..., down to the token that is cut off:

    around = [es₁, es₂, ..., esₖ]        (es₁ ... (es₂ ... ( ... (esₖ ... last))))

`unclosed around last` is this expression. Its text closes all the lists, so that the token, which
still has no end, takes the parentheses in: what is read from the text is the same but for the
last leaf (`readFirst_display_unclosed`), and is equal to it only if the leaves are
(`alike_unclosed`).
-/

namespace MiniLisp

open MiniLisp.Expr

/-- The lists with these items in front of one another, the last item of the innermost list being
the given one. -/
def unclosed : List (List Expr) → Expr → Expr
  | [], last => last
  | es :: around, last => .list (es ++ [unclosed around last])

/-- The tokens of a text that breaks off inside these lists. -/
def unclosedTokens : List (List Expr) → Token → List Token
  | [], last => [last]
  | es :: around, last => ['('] :: (tokensOfItems es ++ unclosedTokens around last)

/-- Whether all the expressions in front of the last one are readable. -/
def ReadableAround (around : List (List Expr)) : Prop := ∀ es ∈ around, ∀ e ∈ es, Readable e

theorem readableAround_cons {es : List Expr} {around : List (List Expr)} :
    ReadableAround (es :: around) ↔ (∀ e ∈ es, Readable e) ∧ ReadableAround around := by
  rw [ReadableAround, List.forall_mem_cons]
  rfl

/-! ## Tokens that are cut off -/

namespace CutOff

variable {c : Token}

theorem ne_open (hc : CutOff c) : c ≠ ['('] := by
  rintro rfl
  have := hc.2
  contradiction

theorem ne_close (hc : CutOff c) : c ≠ [')'] := by
  rintro rfl
  have := hc.2
  contradiction

/-- A token that is cut off is read as a string or as a symbol. -/
theorem atom_eq (hc : CutOff c) : atom c = if isQuoted c then .str c.tail.dropLast else .sym c := by
  have htrue : c ≠ ("true" : Text) := by
    rintro rfl
    have := hc.2
    contradiction
  have hfalse : c ≠ ("false" : Text) := by
    rintro rfl
    have := hc.2
    contradiction
  rw [atom, if_neg htrue, if_neg hfalse, Binary64.read?_eq_none hc.2]

theorem display_atom (hc : CutOff c) : (atom c).display = c := by
  rw [hc.atom_eq]
  split
  · next h => exact quoted_eq h
  · rfl

theorem alone (hc : CutOff c) : Alone (atom c) := by
  refine ⟨?_, ?_, ?_⟩
  · rw [hc.display_atom, hc.tokenize_self]
  · rw [hc.display_atom]
    exact hc.ne_open
  · rw [hc.display_atom]

theorem not_plain (hc : CutOff c) : ¬ Plain (atom c) := by
  intro h
  have := h.whole
  rw [hc.display_atom] at this
  exact hc.not_whole this

/-- With closing parentheses behind it the token is another expression. -/
theorem alike_atom_append (hc : CutOff c) (k : ℕ) :
    (atom (c ++ List.replicate (k + 1) ')')).alike (atom c) = false := by
  have hquote : '"' ∉ List.replicate (k + 1) ')' := by simp
  -- it ends with a parenthesis, so it is no string, and it is longer than the token
  have hlast : ¬ isQuoted (c ++ List.replicate (k + 1) ')') := by
    simp [isQuoted, List.replicate_succ']
  rw [(hc.append hquote).atom_eq, if_neg hlast, hc.atom_eq]
  split
  · rfl
  · simp [alike, List.replicate_succ]

end CutOff

theorem nesting_atom (t : Token) : (atom t).nesting = 0 := by
  cases h : atom t with
  | list es => exact absurd h (atom_ne_list t es)
  | _ => rfl

/-! ## Printing -/

/-- The token that is cut off takes the parentheses behind it in. -/
theorem tokenize_display_unclosed {c : Token} (hc : CutOff c) {around : List (List Expr)}
    (haround : ReadableAround around) {u : Text} (hu : '"' ∉ u) :
    tokenize ((unclosed around (atom c)).display ++ u) =
      unclosedTokens around (c ++ (List.replicate around.length ')' ++ u)) := by
  induction around generalizing u with
  | nil =>
      rw [unclosed, hc.display_atom, hc.tokenize_append hu]
      rfl
  | cons es around ih =>
      obtain ⟨hes, haround⟩ := readableAround_cons.mp haround
      have hclose : '"' ∉ ')' :: u := by
        simp only [List.mem_cons, not_or]
        exact ⟨by decide, hu⟩
      -- the parenthesis of this list is one more behind the last item
      rw [unclosed, Expr.display, List.cons_append, List.append_assoc, tokenize_paren rfl,
        tokenize_displayItems_concat (fun e he => (hes e he).spelled), List.cons_append,
        List.nil_append, ih haround hclose, unclosedTokens, List.length_cons,
        List.replicate_succ']
      simp

/-! ## Reading -/

theorem splitGroup_unclosedTokens {c : Token} (hopen : c ≠ ['(']) (hclose : c ≠ [')'])
    {around : List (List Expr)} (haround : ReadableAround around) (level : ℕ) :
    splitGroup level (unclosedTokens around c) = (unclosedTokens around c, []) := by
  induction around generalizing level with
  | nil =>
      rw [unclosedTokens, splitGroup_of_ne hopen hclose]
      rfl
  | cons es around ih =>
      obtain ⟨hes, haround⟩ := readableAround_cons.mp haround
      have hclosed : Closed (tokensOfItems es) :=
        closed_tokensOfItems (fun e he => closed_tokens (hes e he).settled)
      rw [unclosedTokens, splitGroup_open, hclosed, ih haround]

theorem nesting_list_concat (es : List Expr) (f : Expr) :
    nestingOfItems (es ++ [f]) = max (nestingOfItems es) f.nesting := by
  induction es with
  | nil => simp [nestingOfItems]
  | cons e es ih => rw [List.cons_append, nestingOfItems, ih, nestingOfItems, max_assoc]

/-- How deep the lists are nested does not depend on the last token. -/
theorem nesting_unclosed (around : List (List Expr)) (s t : Token) :
    (unclosed around (atom s)).nesting = (unclosed around (atom t)).nesting := by
  induction around with
  | nil => rw [unclosed, unclosed, nesting_atom, nesting_atom]
  | cons es around ih =>
      rw [unclosed, unclosed, nesting, nesting, nesting_list_concat, nesting_list_concat, ih]

theorem readExpr_unclosedTokens {c : Token} (hopen : c ≠ ['(']) (hclose : c ≠ [')'])
    {around : List (List Expr)} (haround : ReadableAround around) {limit depth : ℤ}
    (hn : depth + (unclosed around (atom c)).nesting ≤ limit) :
    readExpr limit depth (unclosedTokens around c) =
      (.ok (some (unclosed around (atom c))), []) := by
  induction around generalizing depth with
  | nil =>
      rw [unclosedTokens, readExpr_atom hopen, unclosed]
  | cons es around ih =>
      obtain ⟨hes, hinner⟩ := readableAround_cons.mp haround
      rw [unclosed, nesting, nesting_list_concat] at hn
      have hlast : readExpr limit (depth + 1) (unclosedTokens around c) =
          (.ok (some (unclosed around (atom c))), []) := ih hinner (by omega)
      have hread : ∀ e ∈ es, ReadAt limit (depth + 1) e := by
        intro e hmem
        have := nesting_le_of_mem hmem
        exact (hes e hmem).readAt (by omega)
      have hitems : readItems limit (depth + 1) (tokensOfItems es ++ unclosedTokens around c) =
          .ok (es ++ [unclosed around (atom c)]) := by
        rw [readItems_tokensOfItems hread, readItems_of_readExpr hlast, readItems]
        rfl
      -- no parenthesis ends this list, so it takes all the tokens
      have hsplit : splitGroup 0 (tokensOfItems es ++ unclosedTokens around c) =
          (tokensOfItems es ++ unclosedTokens around c, []) := by
        rw [closed_tokensOfItems (fun e he => closed_tokens (hes e he).settled),
          splitGroup_unclosedTokens hopen hclose hinner]
      rw [unclosedTokens, unclosed]
      exact readExpr_group (by omega) hsplit hitems

/-- **Printed and read again, an expression that was broken off keeps all but its last leaf.** -/
theorem readFirst_display_unclosed {c : Token} (hc : CutOff c) {around : List (List Expr)}
    (haround : ReadableAround around)
    (hn : ((unclosed around (atom c)).nesting : ℤ) ≤ defaultLimit) :
    readFirst (unclosed around (atom c)).display =
      .ok (some (unclosed around (atom (c ++ List.replicate around.length ')')))) := by
  have hquote : '"' ∉ List.replicate around.length ')' := by simp
  have hlonger := hc.append hquote
  have htokens := tokenize_display_unclosed hc haround (u := []) (by simp)
  rw [List.append_nil, List.append_nil] at htokens
  rw [readFirst, htokens, readExpr_unclosedTokens hlonger.ne_open hlonger.ne_close haround]
  rw [nesting_unclosed around _ c]
  omega

/-! ## Comparing -/

theorem allAlike_append_self (es fs gs : List Expr) :
    allAlike (es ++ fs) (es ++ gs) = allAlike fs gs := by
  induction es with
  | nil => rfl
  | cons e es ih =>
      rw [List.cons_append, List.cons_append, allAlike, alike_refl e, Bool.true_and, ih]

theorem alike_unclosed (around : List (List Expr)) (x y : Expr) :
    (unclosed around x).alike (unclosed around y) = x.alike y := by
  induction around with
  | nil => rfl
  | cons es around ih =>
      rw [unclosed, unclosed, alike, allAlike_append_self, allAlike, ih, allAlike, Bool.and_true]

/-- A leaf of an expression that is broken off is plain, or it is the last one. -/
theorem plain_or_eq_of_mem_leaves_unclosed {around : List (List Expr)}
    (haround : ReadableAround around) {t : Token} {l : Expr}
    (hl : l ∈ (unclosed around (atom t)).leaves) : Plain l ∨ l = atom t := by
  induction around with
  | nil =>
      rw [unclosed, leaves_atom] at hl
      exact Or.inr (List.mem_singleton.mp hl)
  | cons es around ih =>
      obtain ⟨hes, hinner⟩ := readableAround_cons.mp haround
      rw [unclosed, mem_leaves_list] at hl
      obtain ⟨e, he, hl⟩ := hl
      rcases List.mem_append.mp he with he | he
      · exact Or.inl (hes e he l hl)
      · rw [List.mem_singleton.mp he] at hl
        exact ih hinner hl

theorem foreign?_unclosed {around : List (List Expr)} (haround : ReadableAround around)
    (t : Token) : (unclosed around (atom t)).foreign? = none := by
  apply foreign?_eq_none
  intro l hl
  rcases plain_or_eq_of_mem_leaves_unclosed haround hl with hplain | rfl
  · exact hplain.foreign?_eq_none
  · exact foreign?_atom t

theorem mem_leaves_unclosed (around : List (List Expr)) (t : Token) :
    atom t ∈ (unclosed around (atom t)).leaves := by
  induction around with
  | nil =>
      rw [unclosed, leaves_atom]
      exact List.mem_singleton_self _
  | cons es around ih =>
      rw [unclosed, mem_leaves_list]
      exact ⟨_, by simp, ih⟩

end MiniLisp
