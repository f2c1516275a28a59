import Mathlib.Logic.Relation
import Mathlib.Tactic
import MiniLisp.Expr.Basic

set_option autoImplicit false

/-! # The structure of expressions

Induction over expressions, where a list is reached through its items, and what is found in an
expression at any depth: its names, the names at the head of its lists, the expressions in it that
are no lists, and how deep lists are nested in lists.
-/

namespace MiniLisp.Expr

/-- Induction over expressions: what holds of a list if it holds of its items, and of everything
else, holds of every expression. -/
@[elab_as_elim]
theorem induction {motive : Expr → Prop} (bool : ∀ b, motive (.bool b))
    (num : ∀ x, motive (.num x)) (str : ∀ s, motive (.str s)) (sym : ∀ n, motive (.sym n))
    (list : ∀ es, (∀ e ∈ es, motive e) → motive (.list es))
    (foreign : ∀ v, motive (.foreign v)) : ∀ e, motive e
  | .bool b => bool b
  | .num x => num x
  | .str s => str s
  | .sym n => sym n
  | .foreign v => foreign v
  | .list es => list es (fun e _ => induction bool num str sym list foreign e)

mutual

/-- The names that occur in an expression, in order. -/
def symbols : Expr → List Text
  | .sym n => [n]
  | .list es => symbolsOfItems es
  | _ => []

/-- The names that occur in expressions, in order. -/
def symbolsOfItems : List Expr → List Text
  | [] => []
  | e :: es => symbols e ++ symbolsOfItems es

end

theorem mem_symbols_sym (n : Text) : n ∈ (sym n).symbols := List.mem_singleton_self n

theorem symbolsOfItems_eq_flatMap (es : List Expr) : symbolsOfItems es = es.flatMap symbols := by
  induction es with
  | nil => rfl
  | cons e es ih => rw [symbolsOfItems, ih, List.flatMap_cons]

theorem mem_symbols_list {n : Text} {es : List Expr} :
    n ∈ (list es).symbols ↔ ∃ e ∈ es, n ∈ e.symbols := by
  rw [symbols, symbolsOfItems_eq_flatMap, List.mem_flatMap]

/-- What holds of all the names in a list holds of those in its items. -/
theorem forall_symbols_of_mem {S : Text → Prop} {es : List Expr}
    (h : ∀ n ∈ (list es).symbols, S n) {e : Expr} (he : e ∈ es) : ∀ n ∈ e.symbols, S n := by
  intro n hn
  exact h n (mem_symbols_list.mpr ⟨e, he, hn⟩)

/-! ## Expressions in expressions -/

/-- An expression is an item of another one. -/
def ItemOf (e l : Expr) : Prop := ∃ es, l = .list es ∧ e ∈ es

/-- An expression stands in another one, at some depth, and is not this one itself. -/
def Inside : Expr → Expr → Prop := Relation.TransGen ItemOf

/-- An expression is another one or stands in it. -/
def Within : Expr → Expr → Prop := Relation.ReflTransGen ItemOf

theorem itemOf_list {es : List Expr} {e : Expr} (h : e ∈ es) : ItemOf e (list es) := ⟨es, rfl, h⟩

/-! ## Heads -/

mutual

/-- The names at the head of the lists in an expression, at any depth, in order. -/
def heads : Expr → List Text
  | .list (.sym n :: es) => n :: headsOfItems es
  | .list es => headsOfItems es
  | _ => []

/-- The names at the head of the lists in a list of expressions, at any depth, in order. -/
def headsOfItems : List Expr → List Text
  | [] => []
  | e :: es => heads e ++ headsOfItems es

end

theorem headsOfItems_eq_flatMap (es : List Expr) : headsOfItems es = es.flatMap heads := by
  induction es with
  | nil => rfl
  | cons e es ih => rw [headsOfItems, ih, List.flatMap_cons]

theorem mem_heads_head (n : Text) (es : List Expr) : n ∈ (list (sym n :: es)).heads := by
  rw [heads]
  exact List.mem_cons_self

/-- The heads in an item of a list are heads in the list. -/
theorem heads_subset_of_mem {es : List Expr} {e : Expr} (he : e ∈ es) :
    e.heads ⊆ (list es).heads := by
  have hitems : e.heads ⊆ headsOfItems es := by
    intro n hn
    rw [headsOfItems_eq_flatMap, List.mem_flatMap]
    exact ⟨e, he, hn⟩
  cases es with
  | nil => contradiction
  | cons f es =>
      cases f with
      | sym n =>
          -- a name has no heads, so those of the items are those behind it
          have hskip : headsOfItems (sym n :: es) = headsOfItems es := rfl
          rw [heads, ← hskip]
          exact List.Subset.trans hitems (List.subset_cons_self n _)
      | _ => exact hitems

/-! ## Leaves -/

mutual

/-- The expressions in an expression, at any depth, that are no lists, in order. -/
def leaves : Expr → List Expr
  | .list es => leavesOfItems es
  | e => [e]

/-- The expressions in a list of expressions, at any depth, that are no lists, in order. -/
def leavesOfItems : List Expr → List Expr
  | [] => []
  | e :: es => leaves e ++ leavesOfItems es

end

theorem leavesOfItems_eq_flatMap (es : List Expr) : leavesOfItems es = es.flatMap leaves := by
  induction es with
  | nil => rfl
  | cons e es ih => rw [leavesOfItems, ih, List.flatMap_cons]

theorem mem_leaves_list {l : Expr} {es : List Expr} :
    l ∈ (list es).leaves ↔ ∃ e ∈ es, l ∈ e.leaves := by
  rw [leaves, leavesOfItems_eq_flatMap, List.mem_flatMap]

theorem forall_leaves_list {p : Expr → Prop} {es : List Expr} :
    (∀ l ∈ (list es).leaves, p l) ↔ ∀ e ∈ es, ∀ l ∈ e.leaves, p l := by
  constructor
  · intro h e he l hl
    exact h l (mem_leaves_list.mpr ⟨e, he, hl⟩)
  · intro h l hl
    obtain ⟨e, he, hl⟩ := mem_leaves_list.mp hl
    exact h e he l hl

/-- Induction over expressions all of whose leaves have a property. -/
@[elab_as_elim]
theorem leaves_induction {p : Expr → Prop} {motive : (e : Expr) → (∀ l ∈ e.leaves, p l) → Prop}
    (leaf : ∀ e (h : ∀ l ∈ e.leaves, p l), p e → motive e h)
    (list : ∀ es (h : ∀ e ∈ es, ∀ l ∈ e.leaves, p l), (∀ e (he : e ∈ es), motive e (h e he)) →
      motive (.list es) (forall_leaves_list.mpr h))
    {e : Expr} (h : ∀ l ∈ e.leaves, p l) : motive e h := by
  have hleaf : ∀ e : Expr, e.leaves = [e] → ∀ h : ∀ l ∈ e.leaves, p l, motive e h := by
    intro e hleaves h
    exact leaf e h (h e (by simp [hleaves]))
  induction e using Expr.induction with
  | list es ih =>
      have hes := forall_leaves_list.mp h
      exact list es hes (fun e he => ih e he (hes e he))
  | _ => exact hleaf _ rfl h

theorem firstForeign?_eq_none_iff {es : List Expr} :
    firstForeign? es = none ↔ ∀ e ∈ es, e.foreign? = none := by
  induction es with
  | nil => simp [firstForeign?]
  | cons e es ih => rw [firstForeign?, Option.or_eq_none_iff, ih, List.forall_mem_cons]

theorem foreign?_eq_none {e : Expr} (h : ∀ l ∈ e.leaves, l.foreign? = none) :
    e.foreign? = none := by
  induction e using Expr.induction with
  | list es ih =>
      have hes := forall_leaves_list.mp h
      exact firstForeign?_eq_none_iff.mpr fun e he => ih e he (hes e he)
  | foreign v => exact h _ (by simp [leaves])
  | _ => rfl

/-! ## Nesting -/

mutual

/-- The number of lists around the innermost list of an expression, itself counted. -/
def nesting : Expr → Nat
  | .list es => nestingOfItems es + 1
  | _ => 0

/-- The greatest nesting in a list of expressions. -/
def nestingOfItems : List Expr → Nat
  | [] => 0
  | e :: es => max (nesting e) (nestingOfItems es)

end

mutual

/-- The greatest number of lists of an expression that are nested in one another and not empty. -/
def filledNesting : Expr → Nat
  | .list [] => 0
  | .list (e :: es) => max (filledNesting e) (filledNestingOfItems es) + 1
  | _ => 0

/-- The greatest number of non-empty lists nested in one another in a list of expressions. -/
def filledNestingOfItems : List Expr → Nat
  | [] => 0
  | e :: es => max (filledNesting e) (filledNestingOfItems es)

end

theorem filledNesting_le_of_mem {e : Expr} {es : List Expr} (h : e ∈ es) :
    e.filledNesting ≤ filledNestingOfItems es := by
  induction es with
  | nil => contradiction
  | cons f es ih =>
      rw [filledNestingOfItems]
      rcases List.mem_cons.mp h with rfl | h
      · exact le_max_left _ _
      · exact (ih h).trans (le_max_right _ _)

theorem filledNesting_list {es : List Expr} (h : es ≠ []) :
    (list es).filledNesting = filledNestingOfItems es + 1 := by
  cases es with
  | nil => contradiction
  | cons e es => rw [filledNesting, filledNestingOfItems]

/-- An item of a list is one level less deep than the list. -/
theorem filledNesting_lt_of_mem {e : Expr} {es : List Expr} (h : e ∈ es) :
    e.filledNesting < (list es).filledNesting := by
  rw [filledNesting_list (List.ne_nil_of_mem h)]
  exact Nat.lt_succ_of_le (filledNesting_le_of_mem h)

theorem filledNesting_le_nesting (e : Expr) : e.filledNesting ≤ e.nesting := by
  have hitems : ∀ es : List Expr, (∀ e ∈ es, e.filledNesting ≤ e.nesting) →
      filledNestingOfItems es ≤ nestingOfItems es := by
    intro es hes
    induction es with
    | nil => exact Nat.le_refl 0
    | cons e es ih =>
        rw [filledNestingOfItems, nestingOfItems]
        exact max_le_max (hes e (by simp)) (ih (fun f hf => hes f (by simp [hf])))
  induction e using Expr.induction with
  | list es ih =>
      cases es with
      | nil => exact Nat.zero_le _
      | cons e es =>
          rw [filledNesting_list (List.cons_ne_nil e es), nesting]
          exact Nat.succ_le_succ (hitems _ ih)
  | _ => exact Nat.le_refl 0

end MiniLisp.Expr
