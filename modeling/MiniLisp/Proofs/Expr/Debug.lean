import MiniLisp.Expr.Display
import MiniLisp.Proofs.Expr.Structure
import MiniLisp.Proofs.Number.Notation
import MiniLisp.Proofs.Text.Quoted

set_option autoImplicit false

/-! # Debugging texts are unambiguous

The debugging text of an expression is the name of its kind and, between parentheses, what it holds.
At the beginning of a longer text it tells the expression and also where it ends
(`debug_append_inj`): no kind has a parenthesis in its name, no number is written with one, and
quoted texts show their ends themselves. So the items of a list can be told one after the other,
whatever brackets and commas stand in them, and what follows an item is a comma or the bracket that
closes the list.

Hence no two expressions have one debugging text (`debug_unambiguous`).
-/

namespace MiniLisp.Expr

/-! ## Kinds and contents -/

/-- What stands between the parentheses of a debugging text. -/
def debugBody : Expr → Text
  | .bool b => if b then "True" else "False"
  | .num x => x.debug
  | .str s => Text.quoted s
  | .sym name => Text.quoted name
  | .list items => '[' :: (debugItems items ++ [']'])
  | .foreign _ => []

theorem debug_append {e : Expr} (he : e.foreign? = none) (r : Text) :
    e.debug ++ r = e.kindName ++ '(' :: (e.debugBody ++ ')' :: r) := by
  have hdebug : e.debug = e.kindName ++ '(' :: (e.debugBody ++ [')']) := by
    cases e with
    | bool b => cases b <;> rfl
    | list es =>
        have hbrackets : debugItems es ++ [']', ')'] = debugItems es ++ [']'] ++ [')'] :=
          List.append_cons (debugItems es) ']' [')']
        show "List([".toList ++ debugItems es ++ [']', ')'] = _
        rw [List.append_assoc, hbrackets]
        rfl
    | foreign v => cases he
    | _ => rfl
  rw [hdebug, List.append_assoc, List.cons_append, List.append_assoc, List.singleton_append]

theorem open_not_mem_kindName {e : Expr} (he : e.foreign? = none) : '(' ∉ e.kindName := by
  cases e with
  | bool b => exact (by decide : '(' ∉ "Bool".toList)
  | num x => exact (by decide : '(' ∉ "Num".toList)
  | str s => exact (by decide : '(' ∉ "Str".toList)
  | sym n => exact (by decide : '(' ∉ "Symbol".toList)
  | list es => exact (by decide : '(' ∉ "List".toList)
  | foreign v => cases he

/-- Whether expressions of the language are of one kind. -/
inductive SameKind : Expr → Expr → Prop
  | bool (a b : Bool) : SameKind (.bool a) (.bool b)
  | num (x y : Binary64) : SameKind (.num x) (.num y)
  | str (s t : Text) : SameKind (.str s) (.str t)
  | sym (m n : Text) : SameKind (.sym m) (.sym n)
  | list (es fs : List Expr) : SameKind (.list es) (.list fs)

/-- Kinds have different names. -/
theorem sameKind_of_kindName {e f : Expr} (he : e.foreign? = none) (hf : f.foreign? = none)
    (h : e.kindName = f.kindName) : SameKind e f := by
  cases e with
  | bool a =>
      cases f with
      | bool b => exact .bool a b
      | foreign v => cases hf
      | _ => nomatch h
  | num x =>
      cases f with
      | num y => exact .num x y
      | foreign v => cases hf
      | _ => nomatch h
  | str s =>
      cases f with
      | str t => exact .str s t
      | foreign v => cases hf
      | _ => nomatch h
  | sym m =>
      cases f with
      | sym n => exact .sym m n
      | foreign v => cases hf
      | _ => nomatch h
  | list es =>
      cases f with
      | list fs => exact .list es fs
      | foreign v => cases hf
      | _ => nomatch h
  | foreign v => cases he

/-- A debugging text shows the kind, and what follows it: the name of a kind has no parenthesis, so
the first one in the text is the one behind the name. -/
theorem debug_append_split {e f : Expr} (he : e.foreign? = none) (hf : f.foreign? = none)
    {r s : Text} (h : e.debug ++ r = f.debug ++ s) :
    SameKind e f ∧ e.debugBody ++ ')' :: r = f.debugBody ++ ')' :: s := by
  rw [debug_append he, debug_append hf] at h
  obtain ⟨hname, hbody⟩ :=
    Text.append_cons_inj (open_not_mem_kindName he) (open_not_mem_kindName hf) h
  exact ⟨sameKind_of_kindName he hf hname, hbody⟩

/-! ## Items -/

theorem debugItems_cons (e : Expr) (es : List Expr) :
    debugItems (e :: es) = e.debug ++ es.flatMap fun f => ", ".toList ++ f.debug := by
  induction es generalizing e with
  | nil => exact (List.append_nil e.debug).symm
  | cons f es ih =>
      have hcomma : debugItems (e :: f :: es) = e.debug ++ ", ".toList ++ debugItems (f :: es) :=
        rfl
      rw [hcomma, ih, List.flatMap_cons, List.append_assoc, List.append_assoc]

/-- The text of an item begins with the name of its kind. -/
theorem debug_append_ne_close {e : Expr} (he : e.foreign? = none) (r s : Text) :
    e.debug ++ r ≠ ']' :: s := by
  rw [debug_append he]
  cases e with
  | foreign v => cases he
  | _ => exact fun h => nomatch h

variable {es fs : List Expr} {r s : Text}

/-- The items of a list are told, and where the last of them ends, if each item is told and where
it ends. -/
theorem debugItems_append_inj (hes : ∀ e ∈ es, e.foreign? = none)
    (hfs : ∀ f ∈ fs, f.foreign? = none)
    (hitem : ∀ e ∈ es, ∀ f ∈ fs, ∀ r s, e.debug ++ r = f.debug ++ s → e = f ∧ r = s)
    (h : debugItems es ++ ']' :: r = debugItems fs ++ ']' :: s) : es = fs ∧ r = s := by
  cases es with
  | nil =>
      cases fs with
      | nil => exact ⟨rfl, (List.cons.inj h).2⟩
      | cons f fs =>
          rw [debugItems_cons, List.append_assoc] at h
          exact absurd h.symm (debug_append_ne_close (hfs f List.mem_cons_self) _ _)
  | cons e es =>
      cases fs with
      | nil =>
          rw [debugItems_cons, List.append_assoc] at h
          exact absurd h (debug_append_ne_close (hes e List.mem_cons_self) _ _)
      | cons f fs =>
          rw [debugItems_cons, debugItems_cons, List.append_assoc, List.append_assoc] at h
          obtain ⟨rfl, hmore⟩ := hitem e List.mem_cons_self f List.mem_cons_self _ _ h
          -- every further item begins with a comma
          have hcomma : ∀ (f : Expr) (r s : Text), ", ".toList ++ f.debug ++ r ≠ ']' :: s :=
            fun f r s h => nomatch h
          have hfurther : ∀ e' ∈ es, ∀ f' ∈ fs, ∀ r s,
              ", ".toList ++ e'.debug ++ r = ", ".toList ++ f'.debug ++ s → e' = f' ∧ r = s := by
            intro e' he' f' hf' r s h
            rw [List.append_assoc, List.append_assoc] at h
            exact hitem e' (List.mem_cons_of_mem e he') f' (List.mem_cons_of_mem e hf') r s
              (List.append_cancel_left h)
          obtain ⟨rfl, hrs⟩ := Text.flatMap_append_inj hcomma hfurther hmore
          exact ⟨rfl, hrs⟩

/-! ## Expressions -/

/-- **A debugging text shows which expression it is of and where it ends.** -/
theorem debug_append_inj {e f : Expr} (he : e.foreign? = none) (hf : f.foreign? = none)
    (h : e.debug ++ r = f.debug ++ s) : e = f ∧ r = s := by
  induction e using Expr.induction generalizing f r s with
  | bool b =>
      obtain ⟨hkind, hbody⟩ := debug_append_split he hf h
      cases hkind with
      | bool _ c =>
          cases b <;> cases c
          · exact ⟨rfl, (List.cons.inj (List.append_cancel_left hbody)).2⟩
          · nomatch hbody
          · nomatch hbody
          · exact ⟨rfl, (List.cons.inj (List.append_cancel_left hbody)).2⟩
  | num x =>
      obtain ⟨hkind, hbody⟩ := debug_append_split he hf h
      cases hkind with
      | num _ y =>
          obtain ⟨hxy, hrs⟩ :=
            Text.append_cons_inj x.close_not_mem_debug y.close_not_mem_debug hbody
          exact ⟨congrArg num (Binary64.debug_injective hxy), hrs⟩
  | str t =>
      obtain ⟨hkind, hbody⟩ := debug_append_split he hf h
      cases hkind with
      | str _ u =>
          obtain ⟨rfl, hrs⟩ := Text.quoted_append_inj hbody
          exact ⟨rfl, (List.cons.inj hrs).2⟩
  | sym m =>
      obtain ⟨hkind, hbody⟩ := debug_append_split he hf h
      cases hkind with
      | sym _ n =>
          obtain ⟨rfl, hrs⟩ := Text.quoted_append_inj hbody
          exact ⟨rfl, (List.cons.inj hrs).2⟩
  | list es ih =>
      obtain ⟨hkind, hbody⟩ := debug_append_split he hf h
      cases hkind with
      | list _ fs =>
          have hes := firstForeign?_eq_none_iff.mp he
          have hfs := firstForeign?_eq_none_iff.mp hf
          have hitem : ∀ e ∈ es, ∀ f ∈ fs, ∀ r s, e.debug ++ r = f.debug ++ s → e = f ∧ r = s :=
            fun e he f hf r s h => ih e he (hes e he) (hfs f hf) h
          have hitems : debugItems es ++ [']'] ++ ')' :: r = debugItems fs ++ [']'] ++ ')' :: s :=
            (List.cons.inj hbody).2
          rw [List.append_assoc, List.append_assoc] at hitems
          obtain ⟨rfl, hrs⟩ := debugItems_append_inj hes hfs hitem hitems
          exact ⟨rfl, (List.cons.inj hrs).2⟩
  | foreign v => cases he

theorem debugged_eq_ok_iff {e : Expr} {t : Text} :
    e.debugged = .ok t ↔ e.foreign? = none ∧ e.debug = t := by
  rw [debugged]
  cases e.foreign? <;> simp

/-- **Debugging texts are unambiguous.** Every expression of the language has a debugging text, and
no other one has it: whatever has this text has the same kinds, texts and numbers at the same
places, zeros with the same sign. -/
theorem debug_unambiguous {e : Expr} (he : e.foreign? = none) :
    ∃ t, e.debugged = .ok t ∧ ∀ f : Expr, f.debugged = .ok t ↔ f = e := by
  refine ⟨e.debug, debugged_eq_ok_iff.mpr ⟨he, rfl⟩, fun f => ⟨?_, ?_⟩⟩
  · intro h
    obtain ⟨hf, hdebug⟩ := debugged_eq_ok_iff.mp h
    have hsame : f.debug ++ [] = e.debug ++ [] := by rw [hdebug]
    exact (debug_append_inj hf he hsame).1
  · rintro rfl
    exact debugged_eq_ok_iff.mpr ⟨he, rfl⟩

/-- A string of brackets, commas, quotes and a line feed does not pass for items of its list. -/
theorem debug_unambiguous_brackets :
    let e := list [str "'), Str(\"\n\\", num (.zero true), list [sym "])"]]
    let t : Text := "List([Str('\\'), Str(\"\\n\\\\'), Num(-0.0), List([Symbol('])')])])"
    e.foreign? = none ∧ e.debugged = .ok t ∧ ∀ f : Expr, f.debugged = .ok t ↔ f = e := by
  intro e t
  have he : e.foreign? = none := rfl
  have htext : e.debugged = .ok t := rfl
  obtain ⟨u, hu, hunique⟩ := debug_unambiguous he
  obtain rfl : t = u := Except.ok.inj (htext.symm.trans hu)
  exact ⟨he, htext, hunique⟩

end MiniLisp.Expr
