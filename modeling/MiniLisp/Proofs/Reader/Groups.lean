import MiniLisp.Proofs.Reader.Printed

set_option autoImplicit false

/-! # Reading the tokens of an expression

The parentheses of an expression match, so no closing parenthesis in its tokens ends a group
around it (`closed_tokens`), and the reader finds the expression in its tokens again, whatever
stands behind them, unless its lists are nested too deep where it stands (`readAt_of_settled`).
-/

namespace MiniLisp

open MiniLisp.Expr

/-! ## Groups -/

theorem splitGroup_open (level : ℕ) (ts : List Token) :
    splitGroup level (['('] :: ts) =
      (['('] :: (splitGroup (level + 1) ts).1, (splitGroup (level + 1) ts).2) := by
  simp [splitGroup]

theorem splitGroup_of_ne {t : Token} (hopen : t ≠ ['(']) (hclose : t ≠ [')']) (level : ℕ)
    (ts : List Token) :
    splitGroup level (t :: ts) = (t :: (splitGroup level ts).1, (splitGroup level ts).2) := by
  simp [splitGroup, hopen, hclose]

theorem splitGroup_close (level : ℕ) (ts : List Token) :
    splitGroup (level + 1) ([')'] :: ts) =
      ([')'] :: (splitGroup level ts).1, (splitGroup level ts).2) := by
  simp [splitGroup]

theorem splitGroup_end (ts : List Token) : splitGroup 0 ([')'] :: ts) = ([], ts) := by
  simp [splitGroup]

/-- Tokens that no closing parenthesis of a group around them is among. -/
def Closed (ts : List Token) : Prop :=
  ∀ (level : ℕ) (rest : List Token), splitGroup level (ts ++ rest) =
    (ts ++ (splitGroup level rest).1, (splitGroup level rest).2)

theorem closed_append {ts us : List Token} (ht : Closed ts) (hu : Closed us) :
    Closed (ts ++ us) := by
  intro level rest
  rw [List.append_assoc, ht, hu, List.append_assoc]

theorem closed_atom {t : Token} (hopen : t ≠ ['(']) (hclose : t ≠ [')']) : Closed [t] := by
  intro level rest
  exact splitGroup_of_ne hopen hclose level rest

theorem closed_group {ts : List Token} (h : Closed ts) : Closed (['('] :: (ts ++ [[')']])) := by
  intro level rest
  rw [List.cons_append, splitGroup_open, List.append_assoc, h, List.singleton_append,
    splitGroup_close]
  simp

theorem closed_tokensOfItems {es : List Expr} (h : ∀ e ∈ es, Closed e.tokens) :
    Closed (tokensOfItems es) := by
  induction es with
  | nil =>
      intro level rest
      rfl
  | cons e es ih =>
      rw [tokensOfItems]
      apply closed_append
      · exact h e (by simp)
      · exact ih (fun f hf => h f (by simp [hf]))

/-- **The parentheses of an expression match.** -/
theorem closed_tokens {e : Expr} (h : ∀ l ∈ e.leaves, Settled l) : Closed e.tokens := by
  induction h using leaves_induction with
  | leaf e _ he =>
      rw [he.tokens_eq]
      exact closed_atom he.not_open he.not_close
  | list es hes ih => exact closed_group (closed_tokensOfItems ih)

/-- A group ends with the parenthesis behind tokens that do not end it. -/
theorem splitGroup_group {ts : List Token} (h : Closed ts) (rest : List Token) :
    splitGroup 0 (ts ++ [')'] :: rest) = (ts, rest) := by
  rw [h, splitGroup_end, List.append_nil]

/-! ## Reading -/

theorem readExpr_atom {t : Token} (hopen : t ≠ ['(']) (limit depth : ℤ) (ts : List Token) :
    readExpr limit depth (t :: ts) = (.ok (some (atom t)), ts) := by
  rw [readExpr, if_neg hopen]

/-- A list is read if its items are read one level down. -/
theorem readExpr_group {limit depth : ℤ} (hdepth : depth < limit) {ts inside after : List Token}
    {items : List Expr} (hsplit : splitGroup 0 ts = (inside, after))
    (hitems : readItems limit (depth + 1) inside = .ok items) :
    readExpr limit depth (['('] :: ts) = (.ok (some (list items)), after) := by
  rw [readExpr, if_pos rfl, if_neg (not_le.mpr hdepth), hsplit]
  simp [hitems, Except.map]

/-- What the first expression of some tokens can be. -/
theorem readExpr_cases {limit depth : ℤ} {t : Token} {ts rest : List Token} {e : Expr}
    (h : readExpr limit depth (t :: ts) = (.ok (some e), rest)) :
    (t ≠ ['('] ∧ e = atom t ∧ rest = ts) ∨
      (t = ['('] ∧ depth < limit ∧ ∃ items : List Expr,
        readItems limit (depth + 1) (splitGroup 0 ts).1 = .ok items ∧ e = list items ∧
          rest = (splitGroup 0 ts).2) := by
  rw [readExpr] at h
  by_cases ht : t = ['(']
  · right
    rw [if_pos ht] at h
    by_cases hdepth : limit ≤ depth
    · rw [if_pos hdepth] at h
      simp at h
    · rw [if_neg hdepth] at h
      simp only [Prod.mk.injEq] at h
      obtain ⟨hlist, rfl⟩ := h
      cases hitems : readItems limit (depth + 1) (splitGroup 0 ts).1 with
      | error c =>
          rw [hitems] at hlist
          contradiction
      | ok items =>
          rw [hitems] at hlist
          simp only [Except.map, Function.comp_apply, Except.ok.injEq, Option.some.injEq] at hlist
          exact ⟨ht, not_le.mp hdepth, items, rfl, hlist.symm, rfl⟩
  · left
    rw [if_neg ht] at h
    simp only [Prod.mk.injEq, Except.ok.injEq, Option.some.injEq] at h
    exact ⟨ht, h.1.symm, h.2.symm⟩

/-- All the expressions of some tokens are the first one and all those behind it. -/
theorem readItems_of_readExpr {limit depth : ℤ} {ts rest : List Token} {e : Expr}
    (h : readExpr limit depth ts = (.ok (some e), rest)) :
    readItems limit depth ts = (readItems limit depth rest).map (e :: ·) := by
  cases ts with
  | nil =>
      rw [readExpr] at h
      simp at h
  | cons t ts =>
      rw [readItems]
      rcases readExpr_cases h with ⟨ht, rfl, rfl⟩ | ⟨ht, hdepth, items, hitems, rfl, rfl⟩
      · rw [if_neg ht]
        cases readItems limit depth rest <;> rfl
      · rw [if_pos ht, if_neg (not_le.mpr hdepth), hitems]
        cases readItems limit depth (splitGroup 0 ts).2 <;> rfl

/-- If all the expressions of some tokens can be read, the first one can. -/
theorem readItems_cases {limit depth : ℤ} {t : Token} {ts : List Token} {es : List Expr}
    (h : readItems limit depth (t :: ts) = .ok es) :
    ∃ e rest more, readExpr limit depth (t :: ts) = (.ok (some e), rest) ∧
      readItems limit depth rest = .ok more ∧ es = e :: more := by
  have hfirst : ∃ e rest, readExpr limit depth (t :: ts) = (.ok (some e), rest) := by
    rw [readItems] at h
    rw [readExpr]
    by_cases ht : t = ['(']
    · rw [if_pos ht] at h ⊢
      by_cases hdepth : limit ≤ depth
      · rw [if_pos hdepth] at h
        contradiction
      · rw [if_neg hdepth] at h ⊢
        cases hitems : readItems limit (depth + 1) (splitGroup 0 ts).1 with
        | error c =>
            rw [hitems] at h
            contradiction
        | ok items => exact ⟨list items, (splitGroup 0 ts).2, by simp [hitems, Except.map]⟩
    · rw [if_neg ht]
      exact ⟨_, _, rfl⟩
  obtain ⟨e, rest, hexpr⟩ := hfirst
  rw [readItems_of_readExpr hexpr] at h
  cases hmore : readItems limit depth rest with
  | error c =>
      rw [hmore] at h
      contradiction
  | ok more =>
      rw [hmore] at h
      simp only [Except.map, Except.ok.injEq] at h
      exact ⟨e, rest, more, hexpr, hmore, h.symm⟩

/-- An expression that is read, `depth` lists inside, in front of whatever tokens follow it. -/
def ReadAt (limit depth : ℤ) (e : Expr) : Prop :=
  ∀ rest : List Token, readExpr limit depth (e.tokens ++ rest) = (.ok (some e), rest)

theorem readItems_tokensOfItems {limit depth : ℤ} {es : List Expr}
    (h : ∀ e ∈ es, ReadAt limit depth e) (rest : List Token) :
    readItems limit depth (tokensOfItems es ++ rest) =
      (readItems limit depth rest).map (es ++ ·) := by
  induction es with
  | nil =>
      rw [tokensOfItems, List.nil_append]
      cases readItems limit depth rest <;> rfl
  | cons e es ih =>
      have he : ReadAt limit depth e := h e (by simp)
      rw [tokensOfItems, List.append_assoc, readItems_of_readExpr (he _),
        ih (fun f hf => h f (by simp [hf]))]
      cases readItems limit depth rest <;> rfl

theorem nesting_le_of_mem {e : Expr} {es : List Expr} (h : e ∈ es) :
    e.nesting ≤ nestingOfItems es := by
  induction es with
  | nil => contradiction
  | cons f es ih =>
      rw [nestingOfItems]
      rcases List.mem_cons.mp h with rfl | h
      · exact le_max_left _ _
      · exact le_trans (ih h) (le_max_right _ _)

/-- A settled expression is read from its token, however deep it stands. -/
theorem Settled.readAt {e : Expr} (he : Settled e) (limit depth : ℤ) : ReadAt limit depth e := by
  intro rest
  rw [he.tokens_eq, List.singleton_append, readExpr_atom he.not_open, he.atom_display]

/-- **An expression whose leaves are settled is read from its tokens**, if its lists are not nested
too deep. -/
theorem readAt_of_settled {e : Expr} (he : ∀ l ∈ e.leaves, Settled l) {limit depth : ℤ}
    (hn : depth + e.nesting ≤ limit) : ReadAt limit depth e := by
  induction he using leaves_induction generalizing depth with
  | leaf e _ he => exact he.readAt limit depth
  | list es hes ih =>
      intro rest
      rw [nesting] at hn
      have hclosed : Closed (tokensOfItems es) :=
        closed_tokensOfItems (fun e hmem => closed_tokens (hes e hmem))
      have hitems : readItems limit (depth + 1) (tokensOfItems es) = .ok es := by
        have hread : ∀ e ∈ es, ReadAt limit (depth + 1) e := by
          intro e hmem
          have := nesting_le_of_mem hmem
          exact ih e hmem (by omega)
        have hall := readItems_tokensOfItems hread []
        rw [List.append_nil, readItems] at hall
        rw [hall]
        simp [Except.map]
      have htokens : (list es).tokens ++ rest = ['('] :: (tokensOfItems es ++ [')'] :: rest) := by
        simp [tokens]
      rw [htokens]
      exact readExpr_group (by omega) (splitGroup_group hclosed rest) hitems

theorem Readable.settled {e : Expr} (he : Readable e) : ∀ l ∈ e.leaves, Settled l :=
  fun l hl => (he l hl).settled

theorem Readable.readAt {e : Expr} (he : Readable e) {limit depth : ℤ}
    (hn : depth + e.nesting ≤ limit) : ReadAt limit depth e :=
  readAt_of_settled he.settled hn

end MiniLisp
