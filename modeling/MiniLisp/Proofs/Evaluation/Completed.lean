import MiniLisp.Proofs.Evaluation.Course
import MiniLisp.Proofs.Evaluation.Discipline

set_option autoImplicit false

/-! # Definitions and assignments as completed calls

Two forms change the frames, and the change is the last thing that they do. So in the events of an
evaluation every definition and every assignment is followed at once by the return of its form, and
these forms do not return without one (`Event.Answered`). What lasts of the definitions is therefore
what the calls of the form come to that have given their value outside the bodies of all `let`s
(`Event.lasting_eq_completed`).

The induction is on the program. It is about whole calls, from their beginning to the value or the
failure: the form alone has its last step behind it and its return still to come.
-/

namespace MiniLisp

open Eval

/-! ## Events -/

namespace Event

/-- The form that makes an event its last step. -/
def lastStepOf? : Event → Option Builtin
  | .defined _ => some .define
  | .assigned .. => some .assign
  | _ => none

/-- Whether an event is neither the last step of a form nor the return of a form that has one. -/
def isPlain : Event → Bool
  | .defined _ | .assigned .. | .returned .define | .returned .assign => false
  | _ => true

/-- A course of events in which every definition and every assignment is the last step of a call
that then gives its value, and in which the calls of these two forms give no value otherwise. -/
inductive Answered : List Event → Prop
  | nil : Answered []
  | plain {e : Event} {events : List Event} : e.isPlain = true → Answered events →
      Answered (e :: events)
  | returned {e : Event} {b : Builtin} {events : List Event} : e.lastStepOf? = some b →
      Answered events → Answered (e :: .returned b :: events)

/-- Whether an event is the return of a form. -/
def isReturnOf (b : Builtin) : Event → Bool
  | .returned form => form == b
  | _ => false

/-- The number of calls of a form that give their value outside the bodies of all the `let`s of a
course of events. -/
def completed (b : Builtin) (events : List Event) : Nat := (outside events).countP (isReturnOf b)

namespace Answered

variable {events more : List Event}

theorem of_isPlain (h : ∀ e ∈ events, e.isPlain = true) : Answered events := by
  induction events with
  | nil => exact .nil
  | cons e events ih =>
      obtain ⟨he, hevents⟩ := List.forall_mem_cons.mp h
      exact .plain he (ih hevents)

theorem append (h : Answered events) (hm : Answered more) : Answered (events ++ more) := by
  induction h with
  | nil => exact hm
  | plain he _ ih => exact .plain he ih
  | returned he _ ih => exact .returned he ih

theorem tail {b : Builtin} {k : Nat} (h : Answered (.dispatched b k :: events)) :
    Answered events := by
  cases h with
  | plain _ h => exact h
  | returned he _ => cases he

end Answered

theorem isDefinition_of_isPlain {e : Event} (he : e.isPlain = true) :
    e.isDefinition = e.isReturnOf .define := by
  cases e with
  | defined n => cases he
  | returned b =>
      cases b with
      | define => cases he
      | _ => rfl
  | _ => rfl

/-- A definition is counted as such, and its call by the return: each pair of events counts once on
both sides, wherever it stands. -/
theorem countP_outsideFrom {events : List Event} (h : Answered events) (depth : Nat) :
    (outsideFrom depth events).countP isDefinition =
      (outsideFrom depth events).countP (isReturnOf .define) := by
  induction h generalizing depth with
  | nil => simp [outsideFrom]
  | @plain e events he _ ih =>
      cases e with
      | bodyEntered => exact ih (depth + 1)
      | bodyLeft => exact ih (depth - 1)
      | _ =>
          rw [outsideFrom_cons rfl, List.countP_append, List.countP_append, ih]
          congr 1
          split
          · rw [List.countP_singleton, List.countP_singleton, isDefinition_of_isPlain he]
          · rfl
  | @returned e b events he _ ih =>
      cases e with
      | defined n | assigned n v level =>
          cases he
          cases depth with
          | zero => simp [outsideFrom, List.countP_cons, isDefinition, isReturnOf, ih]
          | succ depth => simp [outsideFrom, ih]
      | _ => cases he

/-- **The definitions that last** are the calls of the form that give their value outside all
bodies. -/
theorem lasting_eq_completed {events : List Event} (h : Answered events) :
    lasting events = completed .define events := countP_outsideFrom h 0

end Event

/-! ## Computations -/

/-- Whether the definitions and the assignments of a computation are the last steps of calls that
give their value. -/
def Answers {α : Type} (m : Eval α) : Prop := ∀ env : Environment, Event.Answered (m env).events

namespace Answers

variable {α β : Type}

theorem of_silent {m : Eval α} (h : ∀ env, (m env).events = []) : Answers m := by
  intro env
  rw [h]
  exact .nil

theorem bind {m : Eval α} {k : α → Eval β} (hm : Answers m) (hk : ∀ a, Answers (k a)) :
    Answers (m >>= k) := by
  intro env
  rcases bind_cases m k env with ⟨f, -, h⟩ | ⟨a, -, h⟩
  · rw [h]
    exact hm env
  · rw [h]
    exact (hm env).append (hk a _)

theorem refuse (c : Text → Cause) (e : Expr) : Answers (Eval.refuse c e : Eval α) := by
  obtain ⟨f, h⟩ := refuse_apply (α := α) c e
  exact of_silent (fun env => by rw [h])

theorem lookup (n : Text) : Answers (Eval.lookup n) :=
  of_silent (fun env => by rw [lookup_apply])

theorem uncallable (n : Text) : Answers (Eval.uncallable n : Eval Expr) :=
  of_silent (fun env => by rw [uncallable_apply])

theorem sum (total : Binary64) (es : List Expr) : Answers (Eval.sum total es) :=
  of_silent (fun _ => List.eq_nil_iff_forall_not_mem.mpr (fun _ => not_mem_events_sum))

theorem within {m : Eval Expr} (hm : Answers m) (f : Frame) : Answers (Eval.within f m) := by
  intro env
  have hpops : ∀ n size, Event.Answered (popEvents n size) := by
    intro n size
    refine .of_isPlain (fun e he => ?_)
    obtain ⟨k, -, rfl⟩ := List.mem_map.mp he
    rfl
  rw [within_apply]
  exact .plain rfl (.plain rfl ((hm _).append (.plain rfl (hpops _ _))))

theorem counted {m : Eval Expr} (hm : Answers m) : Answers (Eval.counted m) := by
  intro env
  rcases counted_cases m env with ⟨-, h⟩ | ⟨-, h⟩
  · rw [h]
    exact .nil
  · rw [h]
    exact .plain rfl (hm _)

/-! ## Calls -/

variable {b : Builtin} {count : ℕ}

/-- The call of a form that makes no event its last step. -/
theorem dispatched {m : Eval Expr} (hb : (Event.returned b).isPlain = true) (hm : Answers m) :
    Answers (Eval.dispatched b count m) := by
  intro env
  rcases dispatched_cases b count m env with ⟨f, -, h⟩ | ⟨a, -, h⟩
  · rw [h]
    exact .plain rfl (hm env)
  · rw [h]
    exact .plain rfl ((hm env).append (.plain hb .nil))

/-- The call of a form that fails before it does anything. -/
theorem dispatched_raise (f : Fault) : Answers (Eval.dispatched b count (raise f : Eval Expr)) :=
  fun _ => .plain rfl .nil

theorem dispatched_refuse (c : Text → Cause) (e : Expr) :
    Answers (Eval.dispatched b count (Eval.refuse c e : Eval Expr)) := by
  unfold Eval.refuse
  cases e.shown with
  | ok t => exact dispatched_raise _
  | error v => exact dispatched_raise _

/-- A call of two steps, if it gets to the second, ends like a call of this one alone. -/
theorem dispatched_bind {m : Eval α} {k : α → Eval Expr} (hm : Answers m)
    (hk : ∀ a, Answers (Eval.dispatched b count (k a))) :
    Answers (Eval.dispatched b count (m >>= k)) := by
  intro env
  rcases bind_cases m k env with ⟨f, -, h⟩ | ⟨a, -, h⟩
  · rw [Eval.dispatched_of_error count (by rw [h]), h]
    exact .plain rfl (hm env)
  · have hlast := hk a (m env).env
    rcases dispatched_cases b count (k a) (m env).env with ⟨f, hf, hrun⟩ | ⟨v, hv, hrun⟩
    · rw [hrun] at hlast
      rw [Eval.dispatched_of_error count (by rw [h, hf]), h]
      exact .plain rfl ((hm env).append hlast.tail)
    · rw [hrun] at hlast
      rw [Eval.dispatched_of_ok count (by rw [h, hv]), h, List.append_assoc]
      exact .plain rfl ((hm env).append hlast.tail)

theorem define {m : Eval Expr} (hm : Answers m) (target : Expr) :
    Answers (Eval.dispatched .define count (Eval.define target m)) := by
  rcases define_cases target m with ⟨n, -, h⟩ | h
  · rw [h]
    refine dispatched_bind hm (fun v env => ?_)
    exact .plain rfl (.plain rfl (.returned rfl .nil))
  · rw [h]
    exact dispatched_refuse _ _

theorem assignTo {m : Eval Expr} (hm : Answers m) (target : Expr) :
    Answers (Eval.dispatched .assign count (Eval.assignTo target m)) := by
  rcases assignTo_cases target m with ⟨n, -, h⟩ | h
  · rw [h]
    refine dispatched_bind hm (fun v env => ?_)
    rcases assign_cases n v env with ⟨-, h⟩ | ⟨level, -, h⟩
    · have hrun := bind_of_error (fun _ => (pure v : Eval Expr)) (congrArg Run.result h)
      rw [Eval.dispatched_of_error count (congrArg Run.result hrun), hrun, h]
      exact .plain rfl .nil
    · have hrun := bind_of_ok (fun _ => (pure v : Eval Expr)) (congrArg Run.result h)
      rw [Eval.dispatched_of_ok count (congrArg Run.result hrun), hrun, h]
      exact .plain rfl (.returned rfl .nil)
  · rw [h]
    exact dispatched_refuse _ _

end Answers

mutual

/-- **Every evaluation** makes its definitions and assignments the last steps of calls that give
their value. -/
theorem answers_evaluate : ∀ e : Expr, Answers (evaluate e)
  | .bool _ => .of_silent (fun _ => rfl)
  | .num _ => .of_silent (fun _ => rfl)
  | .str _ => .of_silent (fun _ => rfl)
  | .foreign _ => .of_silent (fun _ => rfl)
  | .sym n => .lookup n
  | .list [] => .of_silent (fun _ => rfl)
  | .list (head :: es) => by
      cases head with
      | sym n =>
          apply Answers.counted
          cases Builtin.ofName? n with
          | none => exact .uncallable n
          | some b => exact answers_call b es es.length
      | _ => exact .refuse _ _

/-- So does every call of a form, from its beginning to its return. -/
theorem answers_call : ∀ (b : Builtin) (es : List Expr) (count : ℕ),
    Answers (dispatched b count (applyForm b es))
  | .add, es, _ => by
      rw [applyForm]
      exact .dispatched rfl ((Answers.sum _ es).bind (fun _ => .of_silent (fun _ => rfl)))
  | .define, [target, e], _ => (answers_evaluate e).define target
  | .define, [], _ => .dispatched_raise _
  | .define, [_], _ => .dispatched_raise _
  | .define, _ :: _ :: _ :: _, _ => .dispatched_raise _
  | .assign, [target, e], _ => (answers_evaluate e).assignTo target
  | .assign, [], _ => .dispatched_raise _
  | .assign, [_], _ => .dispatched_raise _
  | .assign, _ :: _ :: _ :: _, _ => .dispatched_raise _
  | .letIn, [], _ => .dispatched_raise _
  | .letIn, e :: es, _ => by
      cases e with
      | list pairs =>
          have hbody : Answers (applyForm .sequence es) := answers_sequence es
          exact .dispatched rfl ((answers_bindAll .empty pairs).bind (fun f => hbody.within f))
      | _ => exact .dispatched_refuse (fun t => .noBindings (some t)) _
  | .sequence, es, _ => .dispatched rfl (answers_sequence es)

theorem answers_sequence : ∀ es : List Expr, Answers (applyForm .sequence es)
  | [] => .of_silent (fun _ => rfl)
  | [e] => answers_evaluate e
  | e :: f :: es => (answers_evaluate e).bind (fun _ => answers_sequence (f :: es))

theorem answers_bindAll : ∀ (f : Frame) (pairs : List Expr), Answers (bindAll f pairs)
  | _, [] => .of_silent (fun _ => rfl)
  | f, pair :: pairs => by
      by_cases hp : ∃ n e, pair = .list [.sym n, e]
      · obtain ⟨n, e, rfl⟩ := hp
        exact (answers_evaluate e).bind (fun v => answers_bindAll (f.put n v) pairs)
      · rw [bindAll_of_not_pair f pairs hp]
        exact .refuse _ _

end

end MiniLisp
