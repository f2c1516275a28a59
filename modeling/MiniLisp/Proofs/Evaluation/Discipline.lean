import MiniLisp.Proofs.Evaluation.Step

set_option autoImplicit false

/-! # What all evaluations have in common

An evaluation is put together from few kinds of steps in few ways. So a property that the steps
have, and that putting together keeps, is a property of every evaluation. `Discipline` lists what
has to be shown of the steps and of the ways to put them together; `Discipline.evaluate`,
`Discipline.applyForm` and `Discipline.bindAll` are the induction over programs, made once.

A discipline may restrict the programs it is about (`code`, `form`) and may follow what is known
of the values that come up (`value`).
-/

namespace MiniLisp

theorem bindAll_of_not_pair (f : Frame) {pair : Expr} (pairs : List Expr)
    (h : ¬ ∃ n e, pair = .list [.sym n, e]) :
    bindAll f (pair :: pairs) = Eval.refuse .badBinding pair := by
  rw [bindAll]
  exact fun n e he => h ⟨n, e, he⟩

/-! ## Disciplines -/

open Eval

/-- A property of computations, with what makes it a property of every evaluation. -/
structure Discipline where
  /-- The expressions that may stand in a program. -/
  code : Expr → Prop
  /-- The forms that may be called. -/
  form : Builtin → Prop
  /-- The values that may come up. -/
  value : Expr → Prop
  /-- The property of a computation whose results all have the given property. -/
  holds : {α : Type} → (α → Prop) → Eval α → Prop
  code_item : ∀ {es : List Expr} {e : Expr}, code (.list es) → e ∈ es → code e
  form_of_code : ∀ {n : Text} {es : List Expr} {b : Builtin},
    code (.list (.sym n :: es)) → Builtin.ofName? n = some b → form b
  value_bool : ∀ b, value (.bool b)
  value_num : ∀ x, value (.num x)
  value_str : ∀ {s}, code (.str s) → value (.str s)
  value_nil : value .nil
  pure : ∀ {α : Type} {post : α → Prop} {a : α}, post a → holds post (Pure.pure a)
  bind : ∀ {α β : Type} {mid : α → Prop} {post : β → Prop} {m : Eval α} {k : α → Eval β},
    holds mid m → (∀ a, mid a → holds post (k a)) → holds post (m >>= k)
  fail : ∀ {α : Type} {post : α → Prop} (c : Cause), holds post (Eval.fail c)
  refuse : ∀ {α : Type} {post : α → Prop} (c : Text → Cause) {e : Expr},
    code e ∨ value e → holds post (Eval.refuse c e)
  foreign : ∀ {α : Type} {post : α → Prop} {v : Foreign}, code (.foreign v) →
    holds post (Eval.raise (.notExpression v.kind))
  lookup : ∀ {n}, code (.sym n) → holds value (Eval.lookup n)
  assign : ∀ {n v}, form .assign → code (.sym n) → value v →
    holds (fun _ => True) (Eval.assign n v)
  declare : ∀ {n v}, form .define → code (.sym n) → value v → holds value (Eval.declare n v)
  within : ∀ {f : Frame} {m : Eval Expr}, (∀ b ∈ f.bindings, code (.sym b.1) ∧ value b.2) →
    holds value m → holds value (Eval.within f m)
  counted : ∀ {m : Eval Expr}, holds value m → holds value (Eval.counted m)
  dispatched : ∀ {b : Builtin} {k : Nat} {m : Eval Expr}, holds value m →
    holds value (Eval.dispatched b k m)
  uncallable : ∀ {n}, code (.sym n) → holds value (Eval.uncallable n)

namespace Discipline

variable (D : Discipline)

/-- The frames that may come up: their names are code and their values are values. -/
def Admits (f : Frame) : Prop := ∀ b ∈ f.bindings, D.code (.sym b.1) ∧ D.value b.2

theorem admits_empty : D.Admits .empty := fun b hb => by cases hb

theorem Admits.put {D : Discipline} {f : Frame} {n : Text} {v : Expr} (hf : D.Admits f)
    (hn : D.code (.sym n)) (hv : D.value v) : D.Admits (f.put n v) := by
  intro b hb
  rcases Frame.mem_bindings_put hb with rfl | hb
  · exact ⟨hn, hv⟩
  · exact hf b hb

theorem summand {e : Expr} (he : D.code e) : D.holds (fun _ => True) (summand e) := by
  cases e with
  | num x => exact D.pure trivial
  | sym n =>
      refine D.bind (D.lookup he) (fun v hv => ?_)
      cases v with
      | num x => exact D.pure trivial
      | _ => exact D.refuse .notNumber (Or.inr hv)
  | _ => exact D.refuse .notNumber (Or.inl he)

theorem sum {es : List Expr} (hes : ∀ e ∈ es, D.code e) (total : Binary64) :
    D.holds (fun _ => True) (sum total es) := by
  induction es generalizing total with
  | nil => exact D.pure trivial
  | cons e es ih =>
      refine D.bind (D.summand (hes e (by simp))) (fun x _ => ?_)
      exact ih (fun f hf => hes f (by simp [hf])) (total + x)

theorem define {target : Expr} {m : Eval Expr} (hd : D.form .define) (ht : D.code target)
    (hm : D.holds D.value m) : D.holds D.value (define target m) := by
  cases target with
  | sym n => exact D.bind hm (fun v hv => D.declare hd ht hv)
  | _ => exact D.refuse .notDefinable (Or.inl ht)

theorem assignTo {target : Expr} {m : Eval Expr} (hs : D.form .assign) (ht : D.code target)
    (hm : D.holds D.value m) : D.holds D.value (assignTo target m) := by
  cases target with
  | sym n => exact D.bind hm (fun v hv => D.bind (D.assign hs ht hv) (fun _ _ => D.pure hv))
  | _ => exact D.refuse .badTarget (Or.inl ht)

mutual

/-- **Evaluation of a program** has the property. -/
theorem evaluate : ∀ {e : Expr}, D.code e → D.holds D.value (MiniLisp.evaluate e)
  | .bool b, _ => D.pure (D.value_bool b)
  | .num x, _ => D.pure (D.value_num x)
  | .str _, h => D.pure (D.value_str h)
  | .foreign _, h => D.foreign h
  | .sym _, h => D.lookup h
  | .list [], _ => D.pure D.value_nil
  | .list (head :: es), h => by
      have hhead : D.code head := D.code_item h (List.mem_cons_self ..)
      have hes : ∀ e ∈ es, D.code e := fun e he => D.code_item h (List.mem_cons_of_mem _ he)
      cases head with
      | sym n =>
          refine D.counted ?_
          cases hb : Builtin.ofName? n with
          | none => exact D.uncallable hhead
          | some b => exact D.dispatched (applyForm (D.form_of_code h hb) hes)
      | _ => exact D.refuse .badHead (Or.inl hhead)

/-- **A call of a form** has the property. -/
theorem applyForm : ∀ {b : Builtin} {es : List Expr}, D.form b → (∀ e ∈ es, D.code e) →
    D.holds D.value (MiniLisp.applyForm b es)
  | .add, es, _, h => by
      rw [MiniLisp.applyForm]
      exact D.bind (D.sum h _) (fun x _ => D.pure (D.value_num x))
  | .define, [_, e], hb, h => D.define hb (h _ (by simp)) (evaluate (h e (by simp)))
  | .define, [], _, _ => D.fail _
  | .define, [_], _, _ => D.fail _
  | .define, _ :: _ :: _ :: _, _, _ => D.fail _
  | .assign, [_, e], hb, h => D.assignTo hb (h _ (by simp)) (evaluate (h e (by simp)))
  | .assign, [], _, _ => D.fail _
  | .assign, [_], _, _ => D.fail _
  | .assign, _ :: _ :: _ :: _, _, _ => D.fail _
  | .letIn, [], _, _ => D.fail _
  | .letIn, e :: es, _, h => by
      have he : D.code e := h e (List.mem_cons_self ..)
      have hes : ∀ f ∈ es, D.code f := fun f hf => h f (List.mem_cons_of_mem _ hf)
      cases e with
      | list pairs =>
          refine D.bind (bindAll D.admits_empty (fun _ hp => D.code_item he hp)) (fun f hf => ?_)
          exact D.within hf (sequence hes)
      | _ => exact D.refuse (fun t => .noBindings (some t)) (Or.inl he)
  | .sequence, _, _, h => sequence h

/-- The evaluation of expressions one after the other has the property. -/
theorem sequence : ∀ {es : List Expr}, (∀ e ∈ es, D.code e) →
    D.holds D.value (MiniLisp.applyForm .sequence es)
  | [], _ => D.pure D.value_nil
  | [e], h => evaluate (h e (List.mem_cons_self ..))
  | e :: f :: es, h => by
      refine D.bind (evaluate (h e (List.mem_cons_self ..))) (fun _ _ => ?_)
      exact sequence (fun g hg => h g (List.mem_cons_of_mem _ hg))

/-- The evaluation of the bindings of a `let` has the property, and what it gives is a frame
that may come up. -/
theorem bindAll : ∀ {f : Frame} {pairs : List Expr}, D.Admits f → (∀ e ∈ pairs, D.code e) →
    D.holds D.Admits (MiniLisp.bindAll f pairs)
  | _, [], hf, _ => D.pure hf
  | f, pair :: pairs, hf, h => by
      have hpair : D.code pair := h pair (List.mem_cons_self ..)
      by_cases hp : ∃ n e, pair = .list [.sym n, e]
      · obtain ⟨n, e, rfl⟩ := hp
        refine D.bind (evaluate (D.code_item hpair (by simp))) (fun v hv => ?_)
        exact bindAll (hf.put (D.code_item hpair (by simp)) hv)
          (fun g hg => h g (List.mem_cons_of_mem _ hg))
      · rw [bindAll_of_not_pair f pairs hp]
        exact D.refuse .badBinding (Or.inl hpair)

end

end Discipline

end MiniLisp
