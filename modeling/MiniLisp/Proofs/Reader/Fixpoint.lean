import MiniLisp.Proofs.Reader.Reading

set_option autoImplicit false

/-! # Reading the tokens of what was read

An expression that was read from any tokens, even from tokens that no text has, is read again from
its own tokens: in front of all others, as deep in lists and under the same limit
(`readExpr_tokens`). The tokens it was read from may be different ones, since a list that they left
open is closed now and a number is written in the notation of the language.

A closing parenthesis is a symbol only where no list is open. Inside a list the parentheses that
are left match, so every leaf is the expression of another token, and it is settled
(`ItemsRead.settled`).
-/

namespace MiniLisp

open MiniLisp.Expr

theorem mem_symbols_iff {n : Text} {e : Expr} : n ∈ e.symbols ↔ .sym n ∈ e.leaves := by
  induction e using Expr.induction with
  | list es ih =>
      rw [mem_symbols_list, mem_leaves_list]
      exact exists_congr fun e => and_congr_right fun he => ih e he
  | _ => simp [symbols, leaves]

/-- Tokens that close no group are read as expressions whose leaves are settled. -/
theorem ItemsRead.settled {limit depth : ℤ} {ts : List Token} {es : List Expr}
    (h : ItemsRead limit depth ts es) (hin : splitGroup 0 ts = (ts, [])) :
    ∀ e ∈ es, ∀ l ∈ e.leaves, Settled l := by
  induction h with
  | nil depth => simp
  | @group depth ts items more _ _ _ ihInside ihBehind =>
      have hlist : ∀ l ∈ (list items).leaves, Settled l :=
        forall_leaves_list.mpr (ihInside (splitGroup_inside 0 ts))
      exact List.forall_mem_cons.mpr ⟨hlist, ihBehind (splitGroup_behind hin)⟩
  | @token depth t ts more ht _ ih =>
      obtain ⟨hclose, hin⟩ := splitGroup_tail ht hin
      have hatom : ∀ l ∈ (atom t).leaves, Settled l := by
        rw [leaves_atom]
        exact List.forall_mem_singleton.mpr (settled_atom ht hclose)
      exact List.forall_mem_cons.mpr ⟨hatom, ih hin⟩

/-- What the first expression of any tokens is: a closing parenthesis, or an expression that is
found again in its tokens and has settled leaves. -/
theorem settled_of_readExpr {limit depth : ℤ} {ts rest : List Token} {e : Expr}
    (h : readExpr limit depth ts = (.ok (some e), rest)) :
    e = .sym ")" ∨ (∀ l ∈ e.leaves, Settled l) ∧ ReadAt limit depth e := by
  cases ts with
  | nil =>
      rw [readExpr] at h
      cases h
  | cons t ts =>
      rcases readExpr_cases h with ⟨hopen, rfl, -⟩ | ⟨-, hdepth, items, hitems, rfl, -⟩
      · by_cases hclose : t = [')']
        · left
          rw [hclose]
          rfl
        · have hsettled := settled_atom hopen hclose
          refine Or.inr ⟨?_, hsettled.readAt limit depth⟩
          rw [leaves_atom]
          exact List.forall_mem_singleton.mpr hsettled
      · have hread := itemsRead_of_readItems hitems
        have hsettled : ∀ l ∈ (list items).leaves, Settled l :=
          forall_leaves_list.mpr (hread.settled (splitGroup_inside 0 ts))
        have hnesting := hread.nesting_le (by omega)
        refine Or.inr ⟨hsettled, readAt_of_settled hsettled ?_⟩
        rw [nesting]
        omega

/-- **What was read is read again from its tokens.** Whatever the tokens are that an expression was
read from, and however deep in lists: an opening parenthesis is no symbol in it, and a closing one
only if it is the whole expression; the name of a symbol, as a token, is read as this symbol and as
nothing else. The expression is equal to itself, and it is what is read from its own tokens as deep
in lists and under the same limit, whatever follows them, and that is left. -/
theorem readExpr_tokens {limit depth : ℤ} {ts rest : List Token} {e : Expr}
    (h : readExpr limit depth ts = (.ok (some e), rest)) :
    ['('] ∉ e.symbols ∧ ([')'] ∈ e.symbols → e = .sym ")") ∧
      (∀ n ∈ e.symbols, ∀ (limit' depth' : ℤ) (after : List Token),
        readExpr limit' depth' (n :: after) = (.ok (some (.sym n)), after)) ∧
      (e == e) = true ∧
      ∀ after, readExpr limit depth (e.tokens ++ after) = (.ok (some e), after) := by
  rcases settled_of_readExpr h with rfl | ⟨hsettled, hread⟩
  · have hopen : [')'] ≠ ['('] := by decide
    refine ⟨by decide, fun _ => rfl, ?_, by decide,
      fun after => readExpr_atom hopen limit depth after⟩
    intro n hn limit' depth' after
    rw [List.mem_singleton.mp hn]
    exact readExpr_atom hopen limit' depth' after
  · have hsymbol : ∀ n ∈ e.symbols, Settled (.sym n) :=
      fun n hn => hsettled _ (mem_symbols_iff.mp hn)
    refine ⟨fun hn => (hsymbol _ hn).not_open rfl, fun hn => absurd rfl (hsymbol _ hn).not_close,
      fun n hn limit' depth' after => ?_, alike_refl e, hread⟩
    exact (hsymbol n hn).readAt limit' depth' after

/-- A word with a blank in it, a number in a notation that the language does not print, and a word
that starts like a string: the list that they stand in is left open. -/
theorem readExpr_tokens_unclosed :
    let ts : List Token := [['('], ['a', ' ', 'b'], ['('], ['1', 'e', '2'], [')'], ['"', '(']]
    let hundred : Binary64 := .finite false 0x19000000000000 (-46) (by decide)
    let e : Expr := .list [.sym "a b", .list [.num hundred], .sym "\"("]
    readExpr 3 1 ts = (.ok (some e), []) ∧
      e.tokens = [['('], "a b", ['('], "100", [')'], "\"(", [')']] ∧
      (e == e) = true ∧ readExpr 3 1 (e.tokens ++ [[')']]) = (.ok (some e), [[')']]) := by
  intro ts hundred e
  have hword : atom ['a', ' ', 'b'] = .sym "a b" := rfl
  have hnum : atom ['1', 'e', '2'] = .num hundred := rfl
  have hquote : atom ['"', '('] = .sym "\"(" := rfl
  have hitems : readItems 3 2 ts.tail = .ok [.sym "a b", .list [.num hundred], .sym "\"("] := by
    simp [ts, readItems, splitGroup, hword, hnum, hquote, bind, Except.bind, pure, Except.pure]
  have hread : readExpr 3 1 ts = (.ok (some e), []) := readExpr_group (by decide) rfl hitems
  obtain ⟨-, -, -, hself, hagain⟩ := readExpr_tokens hread
  exact ⟨hread, rfl, hself, hagain _⟩

end MiniLisp
