import MiniLisp.Proofs.Reader.Reading

set_option autoImplicit false

/-! # Reading in one pass

The reader looks for the end of a list first and then reads what is inside, so that a token is
passed over once for every list around it. A reader that keeps the open lists on a stack meets
every token once: it opens a list at an opening parenthesis, closes the innermost one at a closing
parenthesis, and closes all of them where the tokens end (`readOnce`). Both come to the same
(`readExpr_eq_readOnce`).

What joins them is how groups lie in one another. A group is split off the tokens behind its
parenthesis in the same way whether these are cut off at the end of a group around it or not
(`splitGroup_splitGroup`). So whatever the reader finds inside a list, the stack holds when it
comes to the end of that list (`readOpen_eq`).
-/

namespace MiniLisp

open MiniLisp.Expr

/-! ## The stack -/

/-- The expression of lists none of which is closed. The innermost list comes first, and the lists
around it follow; the latest item of each is the first. -/
def closeAll : List Expr → List (List Expr) → Expr
  | items, [] => .list items.reverse
  | items, outer :: around => closeAll (.list items.reverse :: outer) around

/-- Reads on where lists are open, to the end of the outermost one. -/
def readOpen : List Expr → List (List Expr) → List Token → Expr × List Token
  | items, around, [] => (closeAll items around, [])
  | items, around, t :: ts =>
      if t = ['('] then readOpen [] (items :: around) ts
      else if t = [')'] then
        match around with
        | [] => (.list items.reverse, ts)
        | outer :: around => readOpen (.list items.reverse :: outer) around ts
      else readOpen (atom t :: items) around ts

/-- The first expression of some tokens, if there are any, and the tokens that it leaves. -/
def readOnce : List Token → Option Expr × List Token
  | [] => (none, [])
  | t :: ts =>
      if t = ['('] then (some (readOpen [] [] ts).1, (readOpen [] [] ts).2)
      else (some (atom t), ts)

/-- Reads on behind the end of the innermost list. -/
def readClosed (items : List Expr) : List (List Expr) → List Token → Expr × List Token
  | [], ts => (.list items.reverse, ts)
  | outer :: around, ts => readOpen (.list items.reverse :: outer) around ts

/-- The end of the tokens closes the innermost list, and then those around it. -/
theorem readOpen_nil (items : List Expr) (around : List (List Expr)) :
    readOpen items around [] = readClosed items around [] := by
  cases around <;> rfl

theorem readOpen_open (items : List Expr) (around : List (List Expr)) (ts : List Token) :
    readOpen items around (['('] :: ts) = readOpen [] (items :: around) ts :=
  if_pos rfl

theorem readOpen_close (items : List Expr) (around : List (List Expr)) (ts : List Token) :
    readOpen items around ([')'] :: ts) = readClosed items around ts := by
  refine ((if_neg (by decide)).trans (if_pos rfl)).trans ?_
  cases around <;> rfl

theorem readOpen_of_ne {t : Token} (hopen : t ≠ ['(']) (hclose : t ≠ [')']) (items : List Expr)
    (around : List (List Expr)) (ts : List Token) :
    readOpen items around (t :: ts) = readOpen (atom t :: items) around ts :=
  (if_neg hopen).trans (if_neg hclose)

/-! ## Groups and the stack -/

/-- **What is inside a list is on the stack at its end.** The items that are read from the group
that the tokens stand in are put to those of the innermost list, and this list is closed. -/
theorem readOpen_eq {limit depth : ℤ} {ts : List Token} {es : List Expr}
    (h : readItems limit depth (splitGroup 0 ts).1 = .ok es) (items : List Expr)
    (around : List (List Expr)) :
    readOpen items around ts = readClosed (es.reverse ++ items) around (splitGroup 0 ts).2 := by
  match ts with
  | [] =>
      rw [splitGroup, readItems] at h
      cases h
      exact readOpen_nil items around
  | t :: ts =>
      by_cases hopen : t = ['(']
      · subst hopen
        obtain ⟨hinner, hafter⟩ := splitGroup_splitGroup 0 0 ts
        rw [splitGroup_open] at h ⊢
        obtain ⟨e, rest, more, hfirst, hmore, rfl⟩ := readItems_cases h
        rcases readExpr_cases hfirst with ⟨hne, -⟩ | ⟨-, -, inner, hitems, rfl, rfl⟩
        · contradiction
        -- the inner group is the same whether its tokens are cut off at the outer one or not
        rw [hinner] at hitems hmore
        have hlength := length_splitGroup_le 0 ts
        calc readOpen items around (['('] :: ts)
            = readOpen [] (items :: around) ts := readOpen_open items around ts
          _ = readClosed (inner.reverse ++ []) (items :: around) (splitGroup 0 ts).2 :=
              readOpen_eq hitems [] (items :: around)
          _ = readOpen (.list inner :: items) around (splitGroup 0 ts).2 := by
              rw [readClosed, List.append_nil, List.reverse_reverse]
          _ = readClosed (more.reverse ++ .list inner :: items) around
                (splitGroup 0 (splitGroup 0 ts).2).2 :=
              readOpen_eq hmore (.list inner :: items) around
          _ = readClosed ((.list inner :: more).reverse ++ items) around
                (splitGroup (0 + 1) ts).2 := by
              rw [hafter, List.reverse_cons, List.append_assoc, List.singleton_append]
      by_cases hclose : t = [')']
      · subst hclose
        rw [splitGroup_end, readItems] at h
        cases h
        rw [splitGroup_end]
        exact readOpen_close items around ts
      · rw [splitGroup_of_ne hopen hclose] at h ⊢
        obtain ⟨e, rest, more, hfirst, hmore, rfl⟩ := readItems_cases h
        rcases readExpr_cases hfirst with ⟨-, rfl, rfl⟩ | ⟨heq, -⟩
        · rw [readOpen_of_ne hopen hclose, readOpen_eq hmore (atom t :: items) around,
            List.reverse_cons, List.append_assoc, List.singleton_append]
        · contradiction
  termination_by ts.length
  decreasing_by
    all_goals
      simp only [List.length_cons]
      omega

/-- **The reader reads what the stack reads**, and leaves the same tokens, unless it refuses. -/
theorem readOnce_of_readExpr {limit depth : ℤ} {ts rest : List Token} {first : Option Expr}
    (h : readExpr limit depth ts = (.ok first, rest)) : readOnce ts = (first, rest) := by
  cases ts with
  | nil =>
      rw [readExpr] at h
      cases h
      rfl
  | cons t ts =>
      cases first with
      | none => exact absurd h (readExpr_ne_none limit depth t ts rest)
      | some e =>
          rcases readExpr_cases h with ⟨hne, rfl, rfl⟩ | ⟨rfl, -, items, hitems, rfl, rfl⟩
          · rw [readOnce, if_neg hne]
          · have hstack : readOpen [] [] ts = (.list items, (splitGroup 0 ts).2) := by
              rw [readOpen_eq hitems [] [], readClosed, List.append_nil, List.reverse_reverse]
            rw [readOnce, if_pos rfl, hstack]

/-! ## Repeated calls -/

/-- The tokens up to the end of a group are split in the same way when nothing follows them. -/
theorem splitGroup_taken (level : ℕ) (ts : List Token) :
    ∃ run, ts = run ++ (splitGroup level ts).2 ∧
      splitGroup level run = ((splitGroup level ts).1, []) := by
  induction ts generalizing level with
  | nil => exact ⟨[], rfl, rfl⟩
  | cons t ts ih =>
      by_cases hopen : t = ['(']
      · subst hopen
        obtain ⟨run, hts, hrun⟩ := ih (level + 1)
        refine ⟨['('] :: run, ?_, ?_⟩
        · rw [splitGroup_open, List.cons_append, ← hts]
        · rw [splitGroup_open, splitGroup_open, hrun]
      by_cases hclose : t = [')']
      · subst hclose
        cases level with
        | zero =>
            rw [splitGroup_end]
            exact ⟨[[')']], rfl, splitGroup_end []⟩
        | succ level =>
            obtain ⟨run, hts, hrun⟩ := ih level
            refine ⟨[')'] :: run, ?_, ?_⟩
            · rw [splitGroup_close, List.cons_append, ← hts]
            · rw [splitGroup_close, splitGroup_close, hrun]
      · obtain ⟨run, hts, hrun⟩ := ih level
        refine ⟨t :: run, ?_, ?_⟩
        · rw [splitGroup_of_ne hopen hclose, List.cons_append, ← hts]
        · rw [splitGroup_of_ne hopen hclose, splitGroup_of_ne hopen hclose, hrun]

/-- An expression is read from the tokens that it takes, whatever follows them, and it takes at
least one. -/
theorem readExpr_taken {limit depth : ℤ} {ts rest : List Token} {e : Expr}
    (h : readExpr limit depth ts = (.ok (some e), rest)) :
    ∃ run, ts = run ++ rest ∧ run ≠ [] ∧ readExpr limit depth run = (.ok (some e), []) := by
  cases ts with
  | nil =>
      rw [readExpr] at h
      cases h
  | cons t ts =>
      rcases readExpr_cases h with ⟨hne, rfl, rfl⟩ | ⟨rfl, hlt, items, hitems, rfl, rfl⟩
      · exact ⟨[t], rfl, by simp, readExpr_atom hne limit depth []⟩
      · obtain ⟨run, hts, hrun⟩ := splitGroup_taken 0 ts
        refine ⟨['('] :: run, ?_, by simp, readExpr_group hlt hrun hitems⟩
        rw [List.cons_append, ← hts]

/-- The tokens that have been taken off the front of some tokens where others are left. -/
def taken (ts left : List Token) : List Token := ts.take (ts.length - left.length)

theorem taken_append (run left : List Token) : taken (run ++ left) left = run := by
  simp [taken]

/-- Expressions are read one after the other: what each call takes and gives, and what is left. -/
inductive Calls (limit depth : ℤ) : List Token → List (List Token × Expr) → List Token → Prop
  | stop (ts : List Token) : Calls limit depth ts [] ts
  | next {ts rest left : List Token} {e : Expr} {calls : List (List Token × Expr)} :
      readExpr limit depth ts = (.ok (some e), rest) → Calls limit depth rest calls left →
        Calls limit depth ts ((taken ts rest, e) :: calls) left

namespace Calls

variable {limit depth : ℤ} {ts left : List Token} {calls : List (List Token × Expr)}

/-- **Nothing is lost and nothing is read twice.** -/
theorem flatten_taken (h : Calls limit depth ts calls left) :
    (calls.map Prod.fst).flatten ++ left = ts := by
  induction h with
  | stop ts => rfl
  | next hread _ ih =>
      obtain ⟨run, rfl, -, -⟩ := readExpr_taken hread
      rw [taken_append, List.map_cons, List.flatten_cons, List.append_assoc, ih]

/-- Every call takes at least one token, and gives what the stack reads from those that it takes. -/
theorem readOnce_taken (h : Calls limit depth ts calls left) :
    ∀ c ∈ calls, c.1 ≠ [] ∧ readOnce c.1 = (some c.2, []) := by
  induction h with
  | stop ts => simp
  | next hread _ ih =>
      obtain ⟨run, rfl, hne, halone⟩ := readExpr_taken hread
      rw [taken_append]
      exact List.forall_mem_cons.mpr ⟨⟨hne, readOnce_of_readExpr halone⟩, ih⟩

end Calls

/-- Calls can be repeated until no tokens are left, or the next expression is refused. -/
theorem exists_calls (limit depth : ℤ) (ts : List Token) :
    ∃ calls left, Calls limit depth ts calls left ∧
      (left = [] ∨ ∃ c rest, readExpr limit depth left = (.error c, rest)) := by
  match ts with
  | [] => exact ⟨[], [], .stop [], Or.inl rfl⟩
  | t :: ts =>
      match h : readExpr limit depth (t :: ts) with
      | (.error c, rest) => exact ⟨[], t :: ts, .stop _, Or.inr ⟨c, rest, h⟩⟩
      | (.ok none, rest) => exact absurd h (readExpr_ne_none limit depth t ts rest)
      | (.ok (some e), rest) =>
          have hlength : rest.length ≤ ts.length := by
            have := length_readExpr_le limit depth t ts
            rwa [h] at this
          obtain ⟨calls, left, hcalls, hend⟩ := exists_calls limit depth rest
          exact ⟨_, left, .next h hcalls, hend⟩
  termination_by ts.length
  decreasing_by
    simp only [List.length_cons]
    omega

/-- **Reading is reading in one pass.** Whatever the tokens are, and however deep in lists they
stand, an expression that the reader does not refuse is the one that the stack reads, and the same
tokens are left. There is none if and only if there are no tokens; otherwise at least one token is
taken. Calls can be repeated until no tokens are left or the next call is refused. What the calls
take, one after the other and with what is left in the end, is all the tokens, and each gives what
the stack reads from the tokens that it takes. -/
theorem readExpr_eq_readOnce (limit depth : ℤ) (ts : List Token) :
    (∀ first rest, readExpr limit depth ts = (.ok first, rest) → readOnce ts = (first, rest)) ∧
      ((readExpr limit depth ts).1 = .ok none ↔ ts = []) ∧
      (∀ e rest, readExpr limit depth ts = (.ok (some e), rest) →
        ∃ run, run ≠ [] ∧ ts = run ++ rest) ∧
      (∀ calls left, Calls limit depth ts calls left →
        (calls.map Prod.fst).flatten ++ left = ts ∧
          ∀ c ∈ calls, c.1 ≠ [] ∧ readOnce c.1 = (some c.2, [])) ∧
      ∃ calls left, Calls limit depth ts calls left ∧
        (left = [] ∨ ∃ c rest, readExpr limit depth left = (.error c, rest)) := by
  refine ⟨fun first rest h => readOnce_of_readExpr h, ⟨fun h => ?_, fun h => ?_⟩,
    fun e rest h => ?_, fun calls left h => ⟨h.flatten_taken, h.readOnce_taken⟩,
    exists_calls limit depth ts⟩
  · cases ts with
    | nil => rfl
    | cons t ts =>
        have hnone : readExpr limit depth (t :: ts) =
            (.ok none, (readExpr limit depth (t :: ts)).2) := Prod.ext h rfl
        exact absurd hnone (readExpr_ne_none limit depth t ts _)
  · rw [h, readExpr]
  · obtain ⟨run, hts, hne, -⟩ := readExpr_taken h
    exact ⟨run, hne, hts⟩

/-- A closing parenthesis with nothing open, and then two lists that the tokens leave open. -/
theorem readExpr_eq_readOnce_unclosed :
    let ts : List Token := [[')'], ['('], ['a'], ['('], [')'], ['('], ['b']]
    let broken : Expr := .list [.sym "a", .nil, .list [.sym "b"]]
    readExpr 2 0 ts.tail = (.ok (some broken), []) ∧ readOnce ts.tail = (some broken, []) ∧
      (∃ run, run ≠ [] ∧ ts.tail = run ++ []) ∧
      ∃ calls, Calls 2 0 ts calls [] ∧ calls.map Prod.snd = [.sym ")", broken] ∧
        (calls.map Prod.fst).flatten ++ [] = ts := by
  intro ts broken
  have ha : atom ['a'] = .sym "a" := rfl
  have hb : atom ['b'] = .sym "b" := rfl
  have hclose : atom [')'] = .sym ")" := rfl
  have hitems : readItems 2 1 [['a'], ['('], [')'], ['('], ['b']] =
      .ok [.sym "a", .nil, .list [.sym "b"]] := by
    simp [readItems, splitGroup, ha, hb]
    rfl
  have hlist : readExpr 2 0 ts.tail = (.ok (some broken), []) :=
    readExpr_group (by decide) rfl hitems
  have hfirst : readExpr 2 0 ts = (.ok (some (.sym ")")), ts.tail) := by
    rw [← hclose]
    exact readExpr_atom (by decide) 2 0 ts.tail
  have hcalls : Calls 2 0 ts [(taken ts ts.tail, .sym ")"), (taken ts.tail [], broken)] [] :=
    .next hfirst (.next hlist (.stop []))
  obtain ⟨honce, -, hrun, -, -⟩ := readExpr_eq_readOnce 2 0 ts.tail
  obtain ⟨-, -, -, hall, -⟩ := readExpr_eq_readOnce 2 0 ts
  exact ⟨hlist, honce _ _ hlist, hrun _ _ hlist, _, hcalls, rfl, (hall _ _ hcalls).1⟩

end MiniLisp
