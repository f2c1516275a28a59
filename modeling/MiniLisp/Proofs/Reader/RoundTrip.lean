import MiniLisp.Proofs.Reader.Reading

set_option autoImplicit false

/-! # Printing what was read

An expression that was read from a text, printed and read again, is the same expression. There is
one exception: a list, if the end of the text cuts a string off in it. Printed, the string still
has no end, and the parentheses that close the list go into it.
-/

namespace MiniLisp

open MiniLisp.Expr

/-- Whether an expression is a list that holds, at any depth, the expression of the token that the
end of a text cuts off inside a string. -/
def HoldsCutOff (t : Text) (e : Expr) : Prop :=
  (∃ es, e = .list es) ∧ ∃ c, cutOff? t = some c ∧ atom c ∈ e.leaves

theorem not_holdsCutOff_atom (t : Text) (u : Token) : ¬ HoldsCutOff t (atom u) := by
  rintro ⟨⟨es, hlist⟩, -⟩
  exact atom_ne_list u es hlist

theorem shown_eq {e : Expr} (h : e.foreign? = none) : e.shown = .ok e.display := by
  rw [shown, h]

/-- A readable expression is read from its text. -/
theorem readFirst_display {e : Expr} (he : Readable e) (hn : (e.nesting : ℤ) ≤ defaultLimit) :
    readFirst e.display = .ok (some e) := by
  rw [readFirst, he.readExpr_display hn]

theorem Alone.readFirst_display {e : Expr} (h : Alone e) : readFirst e.display = .ok (some e) := by
  rw [readFirst, h.readExpr_display]

/-- So is the expression of a token that no list is read from. -/
theorem readFirst_display_atom {t : Token} (ht : Whole t) (hopen : t ≠ ['(']) :
    readFirst (atom t).display = .ok (some (atom t)) :=
  (alone_atom ht hopen).readFirst_display

theorem readFirst_display_cutOff {c : Token} (hc : CutOff c) :
    readFirst (atom c).display = .ok (some (atom c)) :=
  hc.alone.readFirst_display

/-- **What is read, printed and read again is what was read**, unless it is a list that holds the
expression of a string that the end of the text cut off; then it is not. -/
theorem read_display {t : Text} {e : Expr} (he : e ∈ (readText defaultLimit t).exprs) :
    ∃ (s : Text) (e' : Expr), e.shown = .ok s ∧ readFirst s = .ok (some e') ∧
      ((e' == e) = true ↔ ¬ HoldsCutOff t e) := by
  have hends := endsIn_tokenize t
  have hcutOff : ∀ c ∈ cutOff? t, CutOff c := by
    obtain ⟨-, -, -, hcutOff⟩ := hends
    exact hcutOff
  cases readTokens_yielded hends he with
  | @whole u hu hopen =>
      refine ⟨_, atom u, shown_eq (foreign?_atom u), readFirst_display_atom hu hopen, ?_⟩
      exact iff_of_true (alike_refl (atom u)) (not_holdsCutOff_atom t u)
  | @cutOff u hu =>
      refine ⟨_, atom u, shown_eq (foreign?_atom u), readFirst_display_cutOff hu, ?_⟩
      exact iff_of_true (alike_refl (atom u)) (not_holdsCutOff_atom t u)
  | @readable items hitems hn =>
      have hreadable : Readable (.list items) := readable_list.mpr hitems
      refine ⟨_, _, shown_eq hreadable.foreign?_eq_none, readFirst_display hreadable hn, ?_⟩
      refine iff_of_true (alike_refl (.list items)) ?_
      rintro ⟨-, c, hc, hleaf⟩
      exact (hcutOff c hc).not_plain (hreadable _ hleaf)
  | @broken c hcut hc items hitems hn =>
      obtain ⟨before, around, rfl, haround⟩ := hitems
      -- the list is one more around the token
      have hlist : Expr.list (before ++ [unclosed around (atom c)]) =
          unclosed (before :: around) (atom c) := rfl
      rw [hlist] at hn ⊢
      refine ⟨_, _, shown_eq (foreign?_unclosed haround c),
        readFirst_display_unclosed hc haround hn, ?_⟩
      refine iff_of_false ?_ (not_not.mpr ⟨⟨_, rfl⟩, c, hcut, mem_leaves_unclosed _ c⟩)
      have hother := hc.alike_atom_append around.length
      rw [← alike_unclosed (before :: around)] at hother
      exact Bool.eq_false_iff.mp hother

/-- The text of a list that was broken off in a string is read as another list. -/
theorem read_display_broken_list :
    Expr.list [.sym "a", .sym "\"b"] ∈ (readText defaultLimit "(a \"b").exprs ∧
      ∃ (s : Text) (e' : Expr), (Expr.list [.sym "a", .sym "\"b"]).shown = .ok s ∧
        readFirst s = .ok (some e') ∧
        ((e' == Expr.list [.sym "a", .sym "\"b"]) = true ↔
          ¬ HoldsCutOff "(a \"b" (.list [.sym "a", .sym "\"b"])) := by
  have htokens : tokenize "(a \"b" = [['('], ['a'], ['"', 'b']] := by decide
  have hitems : readItems defaultLimit 1 [['a'], ['"', 'b']] =
      .ok [.sym "a", .sym "\"b"] := by
    have ha : atom ['a'] = .sym "a" := rfl
    have hb : atom ['"', 'b'] = .sym "\"b" := rfl
    simp [readItems, ha, hb]
  have hmem : Expr.list [.sym "a", .sym "\"b"] ∈ (readText defaultLimit "(a \"b").exprs := by
    rw [readText, htokens, exprs_readTokens (readExpr_group (by decide) rfl hitems)]
    exact List.mem_cons_self
  exact ⟨hmem, read_display hmem⟩

end MiniLisp
