import MiniLisp.Proofs.Reader.Pieces

set_option autoImplicit false

/-! # Writing a sequence of expressions

An expression is *legible* if its symbols have names that can be told from everything else and its
strings have no double quote that would end them early. Legible expressions, written one after the
other with blanks between them, are read again as what they are (`readText_of_spaced`): the blanks
keep the tokens of neighbours apart, and inside a list the parentheses and blanks of its text do.

The names are described by what the reader looks at, in the order in which it looks, and the content
of a string by the character in front of each double quote; nothing is asked of numbers.
-/

namespace MiniLisp

open MiniLisp.Expr

/-! ## Legible expressions -/

/-- Whether a text can be the name of a symbol that is read: it is a word that starts with no double
quote and is neither a truth value nor a numeral. -/
structure IsName (t : Text) : Prop where
  nonempty : t ≠ []
  undelimited : ∀ c ∈ t, delimits c = false
  unquoted : t.head? ≠ some '"'
  not_true : t ≠ ("true" : Text)
  not_false : t ≠ ("false" : Text)
  not_numeral : Binary64.read? t = none

/-- Whether a text can stand between the quotes of a string: a backslash stands directly before
every double quote in it, and none stands at its end. -/
structure IsContent (s : Text) : Prop where
  escaped : ∀ before after, s = before ++ '"' :: after → before.getLast? = some '\\'
  ended : s.getLast? ≠ some '\\'

/-- An expression whose symbols are names and whose strings are contents, at any depth. -/
inductive Legible : Expr → Prop
  | bool (b : Bool) : Legible (.bool b)
  | num (x : Binary64) : Legible (.num x)
  | str {s : Text} : IsContent s → Legible (.str s)
  | sym {n : Text} : IsName n → Legible (.sym n)
  | list {es : List Expr} : (∀ e ∈ es, Legible e) → Legible (.list es)

theorem IsName.ne_paren {t : Text} (h : IsName t) {c : Char} (hc : isParen c) : t ≠ [c] := by
  rintro rfl
  have := h.undelimited c (by simp)
  rw [delimits, hc, Bool.true_or] at this
  contradiction

theorem IsName.atom_eq {t : Text} (h : IsName t) : atom t = .sym t := by
  have hquoted : ¬ isQuoted t := by
    intro hq
    simp only [isQuoted, Bool.and_eq_true, decide_eq_true_eq] at hq
    exact h.unquoted hq.1.2
  rw [atom, if_neg h.not_true, if_neg h.not_false, if_neg hquoted, h.not_numeral]

/-- A name is read as the symbol of this name. -/
theorem IsName.plain {t : Text} (h : IsName t) : Plain (.sym t) where
  whole := whole_word h.nonempty h.undelimited h.unquoted
  not_open := h.ne_paren rfl
  not_close := h.ne_paren rfl
  atom_display := h.atom_eq

/-- A string ends with the quote behind its content, and with no quote before. -/
theorem IsContent.whole {s : Text} (h : IsContent s) : Whole ('"' :: (s ++ ['"'])) := by
  have hstart : Scan.run .gap ['"'] = ([], .quoted ['"']) := rfl
  have hcontent : Scan.run (.quoted ['"']) s = ([], .quoted (s.reverse ++ ['"'])) := by
    apply run_escaped
    intro before after heq
    rw [List.head?_append, List.head?_reverse, h.escaped before after heq]
    rfl
  -- the character before the last quote is the last one of the content, or the first quote
  have hlast : (s.reverse ++ ['"']).head? ≠ some '\\' := by
    rw [List.head?_append, List.head?_reverse]
    cases hs : s.getLast? with
    | none => simp
    | some c =>
        have := h.ended
        rw [hs] at this
        simpa using this
  have hend : Scan.run (.quoted (s.reverse ++ ['"'])) ['"'] = (['"' :: (s ++ ['"'])], .gap) := by
    rw [Scan.run, Scan.step, if_pos ⟨rfl, hlast⟩]
    simp [Scan.run]
  left
  rw [← List.singleton_append, Scan.run_append, hstart, Scan.run_append, hcontent, hend]
  simp

/-- A content between quotes is read as the string of this content. -/
theorem IsContent.plain {s : Text} (h : IsContent s) : Plain (.str s) where
  whole := h.whole
  not_open := by simp [display]
  not_close := by simp [display]
  atom_display := by
    have hlast : ('"' :: (s ++ ['"'])).getLast? = some '"' := by
      rw [← List.cons_append, List.getLast?_concat]
    have hquoted : isQuoted ('"' :: (s ++ ['"'])) := by
      simp [isQuoted, hlast]
    have htrue : '"' :: (s ++ ['"']) ≠ ("true" : Text) := fun h => by cases h
    have hfalse : '"' :: (s ++ ['"']) ≠ ("false" : Text) := fun h => by cases h
    rw [display, atom, if_neg htrue, if_neg hfalse, if_pos hquoted]
    simp

theorem Legible.readable {e : Expr} (h : Legible e) : Readable e := by
  induction h with
  | bool b => exact (plain_bool b).readable
  | num x => exact (plain_num x).readable
  | str hs => exact hs.plain.readable
  | sym hn => exact hn.plain.readable
  | list _ ih => exact readable_list.mpr ih

/-! ## Texts with blanks between them -/

/-- The text is the given texts, in order, with one or more blanks between neighbours. -/
inductive Spaced : List Text → Text → Prop
  | nil : Spaced [] []
  | single (t : Text) : Spaced [t] t
  | cons (t : Text) {ts : List Text} {w s : Text} : ts ≠ [] → w ≠ [] →
      (∀ c ∈ w, Text.isBlank c) → Spaced ts s → Spaced (t :: ts) (t ++ w ++ s)

/-- A text whose tokens are found again in front of everything that ends a word. -/
def Separable (t : Text) : Prop :=
  ∀ u : Text, (∀ c ∈ u.head?, delimits c) → tokenize (t ++ u) = tokenize t ++ tokenize u

theorem tokenize_blanks_append {w : Text} (hw : ∀ c ∈ w, Text.isBlank c) (u : Text) :
    tokenize (w ++ u) = tokenize u := by
  induction w with
  | nil => rfl
  | cons c w ih =>
      rw [List.cons_append, tokenize_blank (hw c (by simp))]
      exact ih (fun d hd => hw d (by simp [hd]))

/-- **Blanks keep the tokens of texts apart**, whatever the last text ends with. -/
theorem tokenize_of_spaced {ts : List Text} {s : Text} (h : Spaced ts s)
    (hts : ∀ t ∈ ts.dropLast, Separable t) : tokenize s = ts.flatMap tokenize := by
  induction h with
  | nil => rfl
  | single t => simp
  | @cons t ts w s hne hw hblank _ ih =>
      rw [List.dropLast_cons_of_ne_nil hne] at hts
      obtain ⟨ht, hrest⟩ := List.forall_mem_cons.mp hts
      have hhead : ∀ c ∈ (w ++ s).head?, delimits c := by
        obtain ⟨c, w, rfl⟩ := List.exists_cons_of_ne_nil hw
        rintro d ⟨⟩
        rw [delimits, hblank c (by simp), Bool.or_true]
      calc tokenize (t ++ w ++ s)
          = tokenize t ++ tokenize (w ++ s) := by rw [List.append_assoc, ht _ hhead]
        _ = tokenize t ++ tokenize s := by rw [tokenize_blanks_append hblank]
        _ = (t :: ts).flatMap tokenize := by rw [ih hrest, List.flatMap_cons]

theorem Readable.separable {e : Expr} (h : Readable e) : Separable e.display := by
  intro u hu
  rw [h.spelled u hu, tokenize_display h]

theorem flatMap_tokenize_display {es : List Expr} (hes : ∀ e ∈ es, Readable e) :
    (es.map display).flatMap tokenize = tokensOfItems es := by
  induction es with
  | nil => rfl
  | cons e es ih =>
      obtain ⟨he, hes⟩ := List.forall_mem_cons.mp hes
      rw [List.map_cons, List.flatMap_cons, tokenize_display he, ih hes, tokensOfItems]

/-- Expressions are read one after the other from their tokens. -/
theorem readTokens_tokensOfItems {limit : ℤ} {es : List Expr} (h : ∀ e ∈ es, ReadAt limit 0 e) :
    readTokens limit (tokensOfItems es) = ⟨es, none⟩ := by
  induction es with
  | nil => rw [tokensOfItems, readTokens]
  | cons e es ih =>
      obtain ⟨he, hes⟩ := List.forall_mem_cons.mp h
      have hfirst := he (tokensOfItems es)
      rw [tokensOfItems]
      cases htokens : e.tokens ++ tokensOfItems es with
      | nil =>
          rw [htokens, readExpr] at hfirst
          cases hfirst
      | cons t ts =>
          rw [htokens] at hfirst
          rw [readTokens_of_readExpr hfirst, ih hes]

/-- **Legible expressions are read again** from their texts, put one after the other with blanks
between neighbours, if no more of their lists are nested in one another than the limit allows. All
of them have a text, and each is equal to what is read in its place. -/
theorem readText_of_spaced {limit : ℤ} {es : List Expr} (hes : ∀ e ∈ es, Legible e)
    (hn : ∀ e ∈ es, (e.nesting : ℤ) ≤ limit) {t : Text} (ht : Spaced (es.map display) t) :
    (∀ e ∈ es, e.shown = .ok e.display) ∧ readText limit t = ⟨es, none⟩ ∧
      Expr.allAlike es es = true := by
  have hreadable : ∀ e ∈ es, Readable e := fun e he => (hes e he).readable
  refine ⟨fun e he => ?_, ?_, allAlike_refl es⟩
  · rw [shown, (hreadable e he).foreign?_eq_none]
  · have hseparable : ∀ s ∈ (es.map display).dropLast, Separable s := by
      intro s hs
      obtain ⟨e, he, rfl⟩ := List.mem_map.mp (List.mem_of_mem_dropLast hs)
      exact (hreadable e he).separable
    have hread : ∀ e ∈ es, ReadAt limit 0 e := by
      intro e he
      have := hn e he
      exact (hreadable e he).readAt (by omega)
    rw [readText, tokenize_of_spaced ht hseparable, flatMap_tokenize_display hreadable,
      readTokens_tokensOfItems hread]

/-- A string with an escaped quote and an empty list, in a list, in front of a truth value: two
lists are nested, and the blanks are a space, a tabulator and a line end. -/
theorem readText_of_spaced_call :
    let call : Expr := .list [.sym "f", .str "a\\\"b", .list []]
    let t : Text := "(f \"a\\\"b\" ()) \t\ntrue"
    (Legible call ∧ call.nesting = 2) ∧ Spaced ([call, .bool true].map display) t ∧
      readText 2 t = ⟨[call, .bool true], none⟩ := by
  intro call t
  have hname : IsName "f" :=
    ⟨by decide, List.forall_mem_singleton.mpr rfl, by decide, by decide, by decide, by rfl⟩
  have hcontent : IsContent "a\\\"b" := by
    refine ⟨fun before after h => ?_, by decide⟩
    -- the quote is the third of the four characters
    have hat : ("a\\\"b" : Text)[before.length]? = some '"' := by
      rw [h]
      simp
    have hthird : before.length = 2 := by
      have hlt : before.length < 4 := by
        have := congrArg List.length h
        simp at this
        omega
      interval_cases before.length <;> first | rfl | (simp at hat)
    have hbefore := congrArg (List.take 2) h
    rw [← hthird, List.take_left] at hbefore
    rw [← hbefore, hthird]
    rfl
  have hcall : Legible call := by
    refine .list ?_
    intro e he
    simp only [List.mem_cons, List.not_mem_nil, or_false] at he
    rcases he with rfl | rfl | rfl
    · exact .sym hname
    · exact .str hcontent
    · exact .list (by simp)
  have hblank : ∀ c ∈ (" \t\n" : Text), Text.isBlank c :=
    List.forall_mem_cons.mpr
      ⟨rfl, List.forall_mem_cons.mpr ⟨rfl, List.forall_mem_singleton.mpr rfl⟩⟩
  have hspaced : Spaced ([call, .bool true].map display) t :=
    .cons call.display (by simp) (by decide) hblank (.single "true")
  have hlegible : ∀ e ∈ [call, .bool true], Legible e := by
    simp only [List.forall_mem_cons]
    exact ⟨hcall, .bool true, by simp⟩
  have hnesting : ∀ e ∈ [call, .bool true], (e.nesting : ℤ) ≤ 2 := by
    decide
  exact ⟨⟨hcall, rfl⟩, hspaced, (readText_of_spaced hlegible hnesting hspaced).2.1⟩

end MiniLisp
