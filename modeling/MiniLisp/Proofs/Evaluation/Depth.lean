import MiniLisp.Proofs.Evaluation.Passage
import MiniLisp.Proofs.Expr.Structure

set_option autoImplicit false

/-! # How deep an evaluation goes

The environment counts the lists whose evaluation is in progress, and an evaluation is refused
where the count has reached the limit. Every evaluation leaves the count and the limit as it finds
them (`depth_evaluate`), so expressions that are evaluated one after the other find the same room.

The lists in progress at one time are lists of the program that are not empty and stand in one
another. So a program needs no more room than its lists are nested deep (`fits_evaluate`). The
induction is on the program, with the room that it needs: a step into a list takes one level of it.
-/

namespace MiniLisp

open Eval MiniLisp.Expr

/-! ## Refusals for depth -/

/-- Whether the cause of a failure is that the limit of the nesting is exceeded. -/
def Cause.isTooDeep : Cause → Bool
  | .tooDeep _ => true
  | _ => false

/-- Whether a fault is a failure for the depth. -/
def Fault.isTooDeep : Fault → Bool
  | .failure f => f.cause.isTooDeep
  | .notExpression _ => false

theorem Fault.isTooDeep_addNote (n : Note) (f : Fault) : (f.addNote n).isTooDeep = f.isTooDeep := by
  cases f <;> rfl

/-! ## The count and the limit -/

/-- What the steps do to the count and to the limit. -/
def depthPassage : Passage where
  rel env _ left := left.depth = env.depth ∧ left.maxDepth = env.maxDepth
  quiet _ := ⟨rfl, rfl⟩
  trans := fun ⟨hdepth, hmax⟩ ⟨hdepth', hmax'⟩ => ⟨hdepth'.trans hdepth, hmax'.trans hmax⟩
  assigned _ _ := ⟨rfl, rfl⟩
  declared _ _ _ := ⟨rfl, rfl⟩
  within h := h
  counted := by
    rintro env left events - ⟨hdepth, hmax⟩
    refine ⟨?_, hmax⟩
    -- what was added on the way in is taken off on the way out
    show left.depth - 1 = env.depth
    rw [hdepth]
    exact Int.add_sub_cancel env.depth 1

theorem depth_evaluate (e : Expr) (env : Environment) :
    (evaluate e env).env.depth = env.depth :=
  (depthPassage.evaluate e env).1

theorem maxDepth_evaluate (e : Expr) (env : Environment) :
    (evaluate e env).env.maxDepth = env.maxDepth :=
  (depthPassage.evaluate e env).2

/-! ## The room that a program needs -/

/-- Whether a computation is never refused for its depth where `n` more lists may be in progress.
A computation that needs no room is never refused, be the limit as it may. -/
def Fits (n : ℕ) {α : Type} (m : Eval α) : Prop :=
  ∀ env : Environment, (0 < n → env.depth + n ≤ env.maxDepth) →
    ∀ f, (m env).result = .error f → f.isTooDeep = false

namespace Fits

variable {n : ℕ} {α β : Type}

theorem pure (a : α) : Fits n (Pure.pure a : Eval α) := by
  intro env _ f hf
  cases hf

theorem bind {m : Eval α} {k : α → Eval β} (hm : Fits n m) {post : α → Prop}
    (hbalanced : depthPassage.Holds post m) (hk : ∀ a, Fits n (k a)) : Fits n (m >>= k) := by
  intro env hroom
  rcases bind_cases m k env with ⟨f, hf, h⟩ | ⟨a, -, h⟩
  · rw [h]
    rintro g ⟨⟩
    exact hm env hroom f hf
  · rw [h]
    -- the second computation finds the room that the first one found
    obtain ⟨⟨hdepth, hmax⟩, -⟩ := hbalanced env
    exact hk a (m env).env (by rwa [hdepth, hmax])

theorem raise {f : Fault} (hf : f.isTooDeep = false) : Fits n (Eval.raise f : Eval α) := by
  rintro env - g ⟨⟩
  exact hf

theorem fail {c : Cause} (hc : c.isTooDeep = false) : Fits n (Eval.fail c : Eval α) :=
  raise hc

theorem refuse {c : Text → Cause} (hc : ∀ t, (c t).isTooDeep = false) (e : Expr) :
    Fits n (Eval.refuse c e : Eval α) := by
  rw [Eval.refuse]
  cases e.shown with
  | ok t => exact fail (hc t)
  | error v => exact raise rfl

theorem lookup (name : Text) : Fits n (Eval.lookup name) := by
  intro env _ f
  rw [lookup_apply]
  cases env.scopes.get? name with
  | none =>
      rintro ⟨⟩
      rfl
  | some v => rintro ⟨⟩

theorem assign (name : Text) (v : Expr) : Fits n (Eval.assign name v) := by
  intro env _ f hf
  rcases assign_cases name v env with ⟨-, h⟩ | ⟨level, -, h⟩
  · rw [h] at hf
    cases hf
    rfl
  · rw [h] at hf
    cases hf

theorem declare (name : Text) (v : Expr) : Fits n (Eval.declare name v) := by
  rintro env - f ⟨⟩

theorem within {m : Eval Expr} (hm : Fits n m) (f : Frame) : Fits n (Eval.within f m) :=
  fun env hroom => hm { env with scopes := env.scopes.push f } hroom

/-- A list in progress takes one level of the room. -/
theorem counted {m : Eval Expr} (hm : Fits n m) : Fits (n + 1) (Eval.counted m) := by
  intro env hroom
  have hlt := hroom n.succ_pos
  rcases counted_cases m env with ⟨hle, -⟩ | ⟨-, h⟩
  · omega
  · rw [h]
    exact hm { env with depth := env.depth + 1 } (fun _ => by simp only; omega)

theorem dispatched {m : Eval Expr} (hm : Fits n m) (b : Builtin) (k : Nat) :
    Fits n (Eval.dispatched b k m) := by
  intro env hroom
  rcases dispatched_cases b k m env with ⟨f, hf, h⟩ | ⟨a, -, h⟩
  · rw [h]
    rintro g ⟨⟩
    rw [Fault.isTooDeep_addNote]
    exact hm env hroom f hf
  · rw [h]
    rintro g ⟨⟩

theorem uncallable (name : Text) : Fits n (Eval.uncallable name : Eval Expr) := by
  intro env _ f
  rw [uncallable_apply]
  rintro ⟨⟩
  show Cause.isTooDeep _ = false
  split <;> rfl

theorem summand (e : Expr) : Fits n (Eval.summand e) := by
  cases e with
  | num x => exact pure x
  | sym name =>
      refine (lookup name).bind (.lookup name) (fun v => ?_)
      cases v with
      | num x => exact pure x
      | _ => exact refuse (fun _ => rfl) _
  | _ => exact refuse (fun _ => rfl) _

theorem sum (total : Binary64) (es : List Expr) : Fits n (Eval.sum total es) := by
  induction es generalizing total with
  | nil => exact pure total
  | cons e es ih =>
      exact (summand e).bind (depthPassage.discipline.summand trivial) (fun x => ih (total + x))

theorem define {m : Eval Expr} (hm : Fits n m) {post : Expr → Prop}
    (hbalanced : depthPassage.Holds post m) (target : Expr) : Fits n (Eval.define target m) := by
  cases target with
  | sym name => exact hm.bind hbalanced (fun v => declare name v)
  | _ => exact refuse (fun _ => rfl) _

theorem assignTo {m : Eval Expr} (hm : Fits n m) {post : Expr → Prop}
    (hbalanced : depthPassage.Holds post m) (target : Expr) : Fits n (Eval.assignTo target m) := by
  cases target with
  | sym name =>
      exact hm.bind hbalanced (fun v => (assign name v).bind
        (.assign name v) (fun _ => pure v))
  | _ => exact refuse (fun _ => rfl) _

end Fits

mutual

/-- **The evaluation of an expression** needs as much room as its lists are nested deep. -/
theorem fits_evaluate : ∀ {e : Expr} {n : ℕ}, e.filledNesting ≤ n → Fits n (evaluate e)
  | .bool _, _, _ => Fits.pure _
  | .num _, _, _ => Fits.pure _
  | .str _, _, _ => Fits.pure _
  | .foreign _, _, _ => Fits.raise rfl
  | .sym name, _, _ => Fits.lookup name
  | .list [], _, _ => Fits.pure _
  | .list (head :: es), n, h => by
      have hes : ∀ e ∈ es, e.filledNesting < n := fun e he =>
        (filledNesting_lt_of_mem (List.mem_cons_of_mem head he)).trans_le h
      have hhead : head.filledNesting < n :=
        (filledNesting_lt_of_mem (List.mem_cons_self ..)).trans_le h
      cases head with
      | sym name =>
          obtain ⟨k, rfl⟩ : ∃ k, n = k + 1 := ⟨n - 1, by omega⟩
          apply Fits.counted
          cases Builtin.ofName? name with
          | none => exact Fits.uncallable name
          | some b =>
              have hcall : Fits k (applyForm b es) :=
                fits_applyForm (fun e he => Nat.le_of_lt_succ (hes e he))
              exact hcall.dispatched b es.length
      | _ => exact Fits.refuse (fun _ => rfl) _
  termination_by e => sizeOf e

/-- A call of a form needs as much room as the lists in its arguments are nested deep. -/
theorem fits_applyForm : ∀ {b : Builtin} {es : List Expr} {n : ℕ},
    (∀ e ∈ es, e.filledNesting ≤ n) → Fits n (applyForm b es)
  | .add, es, _, _ => by
      rw [applyForm]
      exact (Fits.sum _ es).bind (depthPassage.discipline.sum (fun _ _ => trivial) _)
        (fun _ => Fits.pure _)
  | .define, [target, e], _, h =>
      (fits_evaluate (h e (by simp))).define (depthPassage.holds_evaluate e) target
  | .define, [], _, _ => Fits.fail rfl
  | .define, [_], _, _ => Fits.fail rfl
  | .define, _ :: _ :: _ :: _, _, _ => Fits.fail rfl
  | .assign, [target, e], _, h =>
      (fits_evaluate (h e (by simp))).assignTo (depthPassage.holds_evaluate e) target
  | .assign, [], _, _ => Fits.fail rfl
  | .assign, [_], _, _ => Fits.fail rfl
  | .assign, _ :: _ :: _ :: _, _, _ => Fits.fail rfl
  | .letIn, [], _, _ => Fits.fail rfl
  | .letIn, e :: es, n, h => by
      have he := h e (List.mem_cons_self ..)
      have hbody : Fits n (applyForm .sequence es) :=
        fits_sequence (fun f hf => h f (List.mem_cons_of_mem _ hf))
      cases e with
      | list pairs =>
          have hpairs : Fits n (bindAll .empty pairs) :=
            fits_bindAll (fun p hp => ((filledNesting_lt_of_mem hp).trans_le he).le)
          exact hpairs.bind (depthPassage.holds_bindAll .empty pairs) (fun f => hbody.within f)
      | _ => exact Fits.refuse (fun _ => rfl) _
  | .sequence, _, _, h => fits_sequence h
  termination_by _ es => sizeOf es + 1

theorem fits_sequence : ∀ {es : List Expr} {n : ℕ},
    (∀ e ∈ es, e.filledNesting ≤ n) → Fits n (applyForm .sequence es)
  | [], _, _ => Fits.pure _
  | [e], _, h => fits_evaluate (h e (List.mem_cons_self ..))
  | e :: f :: es, n, h => by
      have he : Fits n (evaluate e) := fits_evaluate (h e (List.mem_cons_self ..))
      exact he.bind (depthPassage.holds_evaluate e)
        (fun _ => fits_sequence (fun g hg => h g (List.mem_cons_of_mem _ hg)))
  termination_by es => sizeOf es

theorem fits_bindAll : ∀ {f : Frame} {pairs : List Expr} {n : ℕ},
    (∀ e ∈ pairs, e.filledNesting ≤ n) → Fits n (bindAll f pairs)
  | f, [], _, _ => Fits.pure f
  | f, pair :: pairs, n, h => by
      by_cases hp : ∃ name e, pair = .list [.sym name, e]
      · obtain ⟨name, e, rfl⟩ := hp
        -- the value stands in the pair, so there is room for it
        have hvalue : e.filledNesting < (list [.sym name, e]).filledNesting :=
          filledNesting_lt_of_mem (by simp)
        have he : Fits n (evaluate e) :=
          fits_evaluate (hvalue.le.trans (h _ (List.mem_cons_self ..)))
        exact he.bind (depthPassage.holds_evaluate e)
          (fun v => fits_bindAll (fun g hg => h g (List.mem_cons_of_mem _ hg)))
      · rw [bindAll_of_not_pair f pairs hp]
        exact Fits.refuse (fun _ => rfl) _
  termination_by _ pairs => sizeOf pairs

end

/-- An evaluation that is refused for its depth is one of lists that are nested deeper than the
limit leaves room for. -/
theorem lt_filledNesting_of_isTooDeep {e : Expr} {env : Environment} {f : Fault}
    (h : (evaluate e env).result = .error f) (hf : f.isTooDeep = true) :
    0 < e.filledNesting ∧ env.maxDepth - env.depth < e.filledNesting := by
  by_contra hroom
  have := fits_evaluate (Nat.le_refl e.filledNesting) env (fun hn => by omega) f h
  rw [this] at hf
  contradiction

end MiniLisp
