import MiniLisp.Event
import MiniLisp.Expr.Display
import MiniLisp.Fault
import MiniLisp.Scope.Environment

set_option autoImplicit false

/-! # Evaluation

A truth value, a number, a string and the empty list are their own values; a symbol has the value
it is bound to. A list with a symbol as its head calls the built-in form of that name, and there
are only as many such calls in progress as the environment allows. The forms are

* `(+ x ...)`, the sum; a symbol among the arguments stands for its value, which must be a number;
* `(def n e)`, which pushes a frame that binds `n` to the value of `e`;
* `(set n e)`, which assigns the value of `e` to `n`;
* `(let ((n e) ...) body ...)`, which evaluates the body with the names bound, and afterwards pops
  their frame with every frame that the body pushed;
* `(eval e ...)`, which evaluates the arguments and has the value of the last.

An evaluation changes the environment and has a course of events, whether it gives a value or
fails; what it changed before a failure stays changed. A `let` pops its frames and a call leaves
the count of calls in either case.
-/

namespace MiniLisp

/-- What a computation in an environment comes to: its result, the environment it leaves, and its
events in order. -/
structure Run (ε α : Type) where
  result : Except ε α
  env : Environment
  events : List Event

/-- A computation in an environment. -/
def Eval (α : Type) : Type := Environment → Run Fault α

namespace Eval

variable {α β : Type}

/-- Runs one computation and, if it gives a value, the next. -/
def andThen (m : Eval α) (k : α → Eval β) : Eval β := fun env =>
  match m env with
  | ⟨.error f, env₁, events⟩ => ⟨.error f, env₁, events⟩
  | ⟨.ok a, env₁, events⟩ =>
      let r := k a env₁
      ⟨r.result, r.env, events ++ r.events⟩

instance : Monad Eval where
  pure a := fun env => ⟨.ok a, env, []⟩
  bind := andThen

theorem pure_apply (a : α) (env : Environment) :
    (pure a : Eval α) env = ⟨.ok a, env, []⟩ := rfl

theorem bind_of_ok {m : Eval α} {env : Environment} {a : α} (k : α → Eval β)
    (h : (m env).result = .ok a) :
    (m >>= k) env =
      ⟨(k a (m env).env).result, (k a (m env).env).env,
        (m env).events ++ (k a (m env).env).events⟩ := by
  show andThen m k env = _
  unfold andThen
  generalize m env = r at h
  cases r
  cases h
  rfl

theorem bind_of_error {m : Eval α} {env : Environment} {f : Fault} (k : α → Eval β)
    (h : (m env).result = .error f) :
    (m >>= k) env = ⟨.error f, (m env).env, (m env).events⟩ := by
  show andThen m k env = _
  unfold andThen
  generalize m env = r at h
  cases r
  cases h
  rfl

/-- Gives no value. -/
def raise (f : Fault) : Eval α := fun env => ⟨.error f, env, []⟩

/-- Fails for a cause. -/
def fail (c : Cause) : Eval α := raise (.ofCause c)

/-- Fails because of an expression, which the message shows. -/
def refuse (cause : Text → Cause) (e : Expr) : Eval α :=
  match e.shown with
  | .ok t => fail (cause t)
  | .error v => raise (.notExpression v.kind)

/-- The environment. -/
def environment : Eval Environment := fun env => ⟨.ok env, env, []⟩

/-- Notes an event. -/
def note (e : Event) : Eval Unit := fun env => ⟨.ok (), env, [e]⟩

/-- The value of a name. -/
def lookup (n : Text) : Eval Expr := fun env =>
  match env.scopes.get? n with
  | some v => ⟨.ok v, env, []⟩
  | none => ⟨.error (.ofCause (.unbound n)), env, []⟩

/-- Assigns a value to a name that is bound. -/
def assign (n : Text) (v : Expr) : Eval Unit := fun env =>
  match Scopes.level? n env.scopes.frames with
  | some level => ⟨.ok (), { env with scopes := env.scopes.put n v }, [.assigned n v level]⟩
  | none => ⟨.error (.ofCause (.unassignable n)), env, []⟩

/-- Pushes a frame. -/
def push (f : Frame) : Eval Unit := fun env =>
  ⟨.ok (), { env with scopes := env.scopes.push f }, [.pushed f.names (env.scopes.size + 1)]⟩

/-- Pops the innermost frame. -/
def pop : Eval Unit := fun env =>
  match env.scopes.pop? with
  | some s => ⟨.ok (), { env with scopes := s }, [.popped s.size]⟩
  | none => ⟨.error (.ofCause .rootPop), env, []⟩

/-- The events of popping frames until `n` are left, where `size` stand. -/
def popEvents (n size : Nat) : List Event :=
  ((List.range size).reverse.takeWhile (n ≤ ·)).map .popped

/-- Runs the body of a `let` and, with or without a value, pops the frames above the first
`n`. -/
def body (n : Nat) (m : Eval α) : Eval α := fun env =>
  let r := m env
  let s := r.env.scopes.shrink n
  ⟨r.result, { r.env with scopes := s },
    .bodyEntered :: (r.events ++ .bodyLeft :: popEvents n r.env.scopes.size)⟩

/-- Counts a computation as one more call in progress, if the limit allows it. -/
def counted (m : Eval α) : Eval α := fun env =>
  if env.maxDepth ≤ env.depth then fail (.tooDeep env.maxDepth) env
  else
    let r := m { env with depth := env.depth + 1 }
    ⟨r.result, { r.env with depth := r.env.depth - 1 }, .entered (env.depth + 1) :: r.events⟩

/-- Runs a form that is called in a program: its failures are noted. -/
def dispatched (form : Builtin) (arguments : Nat) (m : Eval α) : Eval α := fun env =>
  let r := m env
  match r.result with
  | .ok v => ⟨.ok v, r.env, .dispatched form arguments :: (r.events ++ [.returned form])⟩
  | .error f =>
      ⟨.error (f.addNote (.inForm form)), r.env, .dispatched form arguments :: r.events⟩

/-- Fails for a head that names no form. -/
def uncallable (n : Text) : Eval α := fun env =>
  match env.scopes.get? n with
  | some (.list _) => fail (.notCallable n) env
  | _ => fail (.unknownName n) env

/-- A summand: a number, or the number that a symbol is bound to. -/
def summand : Expr → Eval Binary64
  | .num x => pure x
  | .sym n => do
      match ← lookup n with
      | .num x => pure x
      | v => refuse .notNumber v
  | e => refuse .notNumber e

/-- Adds summands to a number, from left to right. -/
def sum (total : Binary64) : List Expr → Eval Binary64
  | [] => pure total
  | e :: es => do
      let x ← summand e
      sum (total + x) es

/-- Pushes a frame for the value of a computation, under the name that a symbol gives. -/
def define (target : Expr) (m : Eval Expr) : Eval Expr :=
  match target with
  | .sym n => do
      let v ← m
      push (Frame.empty.put n v)
      note (.defined n)
      return v
  | e => refuse .notDefinable e

/-- Assigns the value of a computation to the name that a symbol gives. -/
def assignTo (target : Expr) (m : Eval Expr) : Eval Expr :=
  match target with
  | .sym n => do
      let v ← m
      assign n v
      return v
  | e => refuse .badTarget e

/-- Evaluates bindings, then a body in their frame. -/
def letIn (bindings : Eval Frame) (m : Eval Expr) : Eval Expr := do
  let f ← bindings
  let env ← environment
  push f
  body env.scopes.size m

end Eval

open Eval

mutual

/-- The value of an expression. -/
def evaluate : Expr → Eval Expr
  | .sym n => lookup n
  | .list [] => pure .nil
  | .list (.sym n :: arguments) =>
      counted (match Builtin.ofName? n with
        | some form => dispatched form arguments.length (applyForm form arguments)
        | none => uncallable n)
  | .list (head :: _) => refuse .badHead head
  | .foreign v => raise (.notExpression v.kind)
  | e => pure e

/-- The value of a built-in form with arguments, which are not evaluated yet. -/
def applyForm : Builtin → List Expr → Eval Expr
  | .add, es => return .num (← sum (Binary64.zero false) es)
  | .define, [target, e] => define target (evaluate e)
  | .define, es => fail (.wrongCount .define 2 es.length)
  | .assign, [target, e] => assignTo target (evaluate e)
  | .assign, es => fail (.wrongCount .assign 2 es.length)
  | .letIn, .list pairs :: es => letIn (bindAll .empty pairs) (applyForm .sequence es)
  | .letIn, [] => fail (.noBindings none)
  | .letIn, e :: _ => refuse (fun t => .noBindings (some t)) e
  | .sequence, [] => pure .nil
  | .sequence, [e] => evaluate e
  | .sequence, e :: f :: es => do
      let _ ← evaluate e
      applyForm .sequence (f :: es)

/-- The frame of the bindings of a `let`, put to those in a frame. The bindings do not see one
another. -/
def bindAll (f : Frame) : List Expr → Eval Frame
  | [] => pure f
  | .list [.sym n, e] :: pairs => do
      let v ← evaluate e
      bindAll (f.put n v) pairs
  | e :: _ => refuse .badBinding e

end

end MiniLisp
