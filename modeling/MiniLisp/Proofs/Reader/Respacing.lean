import MiniLisp.Proofs.Reader.Written

set_option autoImplicit false

/-! # Other blanks between the tokens

The tokens of a text need no blanks between them where a parenthesis or the end of a string keeps
them apart. Nor does it matter which blanks stand there, or how many: the tokens of a text, put one
after the other with any blanks between neighbours, are the tokens of the new text
(`readText_of_respaced`).

A token of a text, read on its own, is this token again, even if the end of the text has cut it off
(`tokenize_of_mem_tokenize`). What follows it does not change that unless it is cut off, and then it
is the last token of its text.
-/

namespace MiniLisp

theorem Whole.separable {t : Token} (ht : Whole t) : Separable t := by
  intro u hu
  rw [tokenize_whole_append ht hu, tokenize_whole ht]
  rfl

/-- A token of a text is the only token of its own text. -/
theorem tokenize_of_mem_tokenize {s : Text} {t : Token} (ht : t ∈ tokenize s) :
    tokenize t = [t] := by
  obtain ⟨ws, heq, hwhole, hcutOff⟩ := endsIn_tokenize s
  rw [heq] at ht
  rcases List.mem_append.mp ht with ht | ht
  · exact tokenize_whole (hwhole t ht)
  · exact (hcutOff t (Option.mem_toList.mp ht)).tokenize_self

/-- Every token of a text but the last one is whole. -/
theorem whole_of_mem_dropLast {s : Text} {t : Token} (ht : t ∈ (tokenize s).dropLast) :
    Whole t := by
  obtain ⟨ws, heq, hwhole, -⟩ := endsIn_tokenize s
  rw [heq] at ht
  cases hcut : cutOff? s with
  | none =>
      rw [hcut, Option.toList_none, List.append_nil] at ht
      exact hwhole t (List.mem_of_mem_dropLast ht)
  | some c =>
      rw [hcut, Option.toList_some, List.dropLast_concat] at ht
      exact hwhole t ht

/-- **Blanks between the tokens of a text can be changed at will.** A text that is put together from
the tokens of another one, with one or more blanks between neighbours, has the same tokens. So the
same expressions are read from it, and it is refused at the same place if it is refused. -/
theorem readText_of_respaced {s t : Text} (h : Spaced (tokenize s) t) :
    tokenize t = tokenize s ∧ ∀ limit : ℤ, readText limit t = readText limit s := by
  have hseparable : ∀ u ∈ (tokenize s).dropLast, Separable u :=
    fun u hu => (whole_of_mem_dropLast hu).separable
  have htokens : tokenize t = tokenize s := by
    calc tokenize t = (tokenize s).flatMap tokenize := tokenize_of_spaced h hseparable
      _ = (tokenize s).flatMap fun u => [u] :=
          List.flatMap_congr fun u hu => tokenize_of_mem_tokenize hu
      _ = tokenize s := List.flatMap_singleton' _
  refine ⟨htokens, fun limit => ?_⟩
  rw [readText, readText, htokens]

/-- A string that a word follows directly, a word against a parenthesis, and at the end a string
that is cut off behind a blank and a parenthesis. -/
theorem readText_of_respaced_cutOff :
    let s : Text := "(\"a b\"c)\"d )"
    let t : Text := "( \"a b\"\t\nc ) \"d )"
    Spaced (tokenize s) t ∧ tokenize t = tokenize s ∧
      ∀ limit : ℤ, readText limit t = readText limit s := by
  intro s t
  have htokens : tokenize s =
      [['('], ['"', 'a', ' ', 'b', '"'], ['c'], [')'], ['"', 'd', ' ', ')']] := by
    decide
  have hblank : ∀ c ∈ [' '], Text.isBlank c := List.forall_mem_singleton.mpr rfl
  have hblanks : ∀ c ∈ ['\t', '\n'], Text.isBlank c :=
    List.forall_mem_cons.mpr ⟨rfl, List.forall_mem_singleton.mpr rfl⟩
  have hspaced : Spaced (tokenize s) t := by
    rw [htokens]
    exact .cons _ (by simp) (List.cons_ne_nil _ _) hblank
      (.cons _ (by simp) (List.cons_ne_nil _ _) hblanks
        (.cons _ (by simp) (List.cons_ne_nil _ _) hblank
          (.cons _ (by simp) (List.cons_ne_nil _ _) hblank (.single _))))
  exact ⟨hspaced, readText_of_respaced hspaced⟩

end MiniLisp
