import Mathlib.Logic.Relation
import MiniLisp.Proofs.Evaluation.Depth

set_option autoImplicit false

/-! # The moments of an evaluation

An evaluation begins others: of an item of a list, of the arguments of a form, of the bindings of a
`let` and of its body. What is begun, with the environment in which it begins, is a `Moment`, and
`Starts` tells which moments another one leads to directly.

Only calls are counted, so one step adds at most one to the count, and none where the limit has
been reached (`Starts.depth`). The moments of an evaluation are reached in such steps, hence the
count is above the limit at none of them if it was not before (`Reaches.depth_le`). The steps miss
no call: wherever the events tell of a list that is entered, there is a moment with this count
(`visits_evaluate`).
-/

namespace MiniLisp

open Eval

/-! ## Moments -/

/-- What is begun at a moment of an evaluation: an expression, the call of a form, the refusal of a
head that names none, or what is left of the bindings of a `let`. -/
inductive Task where
  | expression (e : Expr)
  | form (b : Builtin) (es : List Expr)
  | uncallable (n : Text)
  | bindings (f : Frame) (pairs : List Expr)

/-- A task, and the environment in which it begins. -/
structure Moment where
  task : Task
  env : Environment

namespace Moment

/-- The environment in which the task of a moment ends, with a value or not. -/
def left : Moment → Environment
  | ⟨.expression e, env⟩ => (evaluate e env).env
  | ⟨.form b es, env⟩ => (applyForm b es env).env
  | ⟨.uncallable n, env⟩ => (uncallable n env : Run Fault Expr).env
  | ⟨.bindings f pairs, env⟩ => (bindAll f pairs env).env

/-- A task ends with the count and the limit that it has begun with. -/
theorem balanced (p : Moment) :
    p.left.depth = p.env.depth ∧ p.left.maxDepth = p.env.maxDepth := by
  obtain ⟨task, env⟩ := p
  cases task with
  | expression e => exact ⟨depth_evaluate e env, maxDepth_evaluate e env⟩
  | form b es => exact depthPassage.applyForm b es env
  | uncallable n =>
      rw [left, uncallable_apply]
      exact ⟨rfl, rfl⟩
  | bindings f pairs => exact depthPassage.bindAll f pairs env

end Moment

/-! ## Steps -/

/-- The task of a moment begins another one directly. -/
inductive Starts : Moment → Moment → Prop
  | call {n : Text} {b : Builtin} {es : List Expr} {env : Environment} :
      Builtin.ofName? n = some b → env.depth < env.maxDepth →
      Starts ⟨.expression (.list (.sym n :: es)), env⟩
        ⟨.form b es, { env with depth := env.depth + 1 }⟩
  | refusal {n : Text} {es : List Expr} {env : Environment} :
      Builtin.ofName? n = none → env.depth < env.maxDepth →
      Starts ⟨.expression (.list (.sym n :: es)), env⟩
        ⟨.uncallable n, { env with depth := env.depth + 1 }⟩
  | defined {n : Text} {e : Expr} {env : Environment} :
      Starts ⟨.form .define [.sym n, e], env⟩ ⟨.expression e, env⟩
  | assigned {n : Text} {e : Expr} {env : Environment} :
      Starts ⟨.form .assign [.sym n, e], env⟩ ⟨.expression e, env⟩
  | bindings {pairs es : List Expr} {env : Environment} :
      Starts ⟨.form .letIn (.list pairs :: es), env⟩ ⟨.bindings .empty pairs, env⟩
  | body {pairs es : List Expr} {env : Environment} {f : Frame} :
      (bindAll .empty pairs env).result = .ok f →
      Starts ⟨.form .letIn (.list pairs :: es), env⟩
        ⟨.form .sequence es,
          { (bindAll .empty pairs env).env with
            scopes := (bindAll .empty pairs env).env.scopes.push f }⟩
  | first {e : Expr} {es : List Expr} {env : Environment} :
      Starts ⟨.form .sequence (e :: es), env⟩ ⟨.expression e, env⟩
  | others {e f : Expr} {es : List Expr} {env : Environment} {v : Expr} :
      (evaluate e env).result = .ok v →
      Starts ⟨.form .sequence (e :: f :: es), env⟩
        ⟨.form .sequence (f :: es), (evaluate e env).env⟩
  | value {f : Frame} {n : Text} {e : Expr} {pairs : List Expr} {env : Environment} :
      Starts ⟨.bindings f (.list [.sym n, e] :: pairs), env⟩ ⟨.expression e, env⟩
  | otherBindings {f : Frame} {n : Text} {e : Expr} {pairs : List Expr} {env : Environment}
      {v : Expr} :
      (evaluate e env).result = .ok v →
      Starts ⟨.bindings f (.list [.sym n, e] :: pairs), env⟩
        ⟨.bindings (f.put n v) pairs, (evaluate e env).env⟩

/-- A moment comes up in the course of the task of another one. -/
def Reaches : Moment → Moment → Prop := Relation.ReflTransGen Starts

namespace Starts

variable {p q : Moment}

theorem maxDepth (h : Starts p q) : q.env.maxDepth = p.env.maxDepth := by
  cases h with
  | body => exact (Moment.balanced ⟨.bindings .empty _, _⟩).2
  | others => exact maxDepth_evaluate _ _
  | otherBindings => exact maxDepth_evaluate _ _
  | _ => rfl

/-- **A step** adds nothing to the count, or it adds one where the limit is not reached yet. -/
theorem depth (h : Starts p q) :
    q.env.depth = p.env.depth ∨
      q.env.depth = p.env.depth + 1 ∧ p.env.depth < p.env.maxDepth := by
  cases h with
  | call _ hlt => exact Or.inr ⟨rfl, hlt⟩
  | refusal _ hlt => exact Or.inr ⟨rfl, hlt⟩
  | body => exact Or.inl (Moment.balanced ⟨.bindings .empty _, _⟩).1
  | others => exact Or.inl (depth_evaluate _ _)
  | otherBindings => exact Or.inl (depth_evaluate _ _)
  | _ => exact Or.inl rfl

end Starts

namespace Reaches

variable {p q : Moment}

theorem maxDepth (h : Reaches p q) : q.env.maxDepth = p.env.maxDepth := by
  induction h with
  | refl => rfl
  | tail _ hstep ih => exact hstep.maxDepth.trans ih

/-- The count is never below the count at the beginning. -/
theorem le_depth (h : Reaches p q) : p.env.depth ≤ q.env.depth := by
  induction h with
  | refl => exact le_refl _
  | tail _ hstep ih =>
      rcases hstep.depth with heq | ⟨heq, -⟩
      · omega
      · omega

/-- **The count is above the limit at no moment** of a run, if it is not at the beginning. -/
theorem depth_le (h : Reaches p q) (hle : p.env.depth ≤ p.env.maxDepth) :
    q.env.depth ≤ q.env.maxDepth := by
  induction h with
  | refl => exact hle
  | tail _ hstep ih =>
      rw [hstep.maxDepth]
      rcases hstep.depth with heq | ⟨heq, hlt⟩
      · omega
      · omega

end Reaches

/-! ## The moments that the events tell of -/

theorem entered_of_dispatched {b : Builtin} {k : Nat} {m : Eval Expr} {env : Environment} {d : ℤ}
    (h : .entered d ∈ (dispatched b k m env).events) : .entered d ∈ (m env).events := by
  rcases dispatched_cases b k m env with ⟨f, -, hrun⟩ | ⟨v, -, hrun⟩
  · simpa [hrun] using h
  · simpa [hrun] using h

theorem entered_of_within {f : Frame} {m : Eval Expr} {env : Environment} {d : ℤ}
    (h : .entered d ∈ (within f m env).events) :
    .entered d ∈ (m { env with scopes := env.scopes.push f }).events := by
  simpa [within_apply, popEvents] using h

/-- Whether a moment with this count comes up in the course of the task of a moment. -/
def Visits (p : Moment) (d : ℤ) : Prop := ∃ q, Reaches p q ∧ q.env.depth = d

theorem Starts.visits {p q : Moment} {d : ℤ} (h : Starts p q) (hq : Visits q d) : Visits p d := by
  obtain ⟨r, hr, hd⟩ := hq
  exact ⟨r, .head h hr, hd⟩

theorem Starts.visits_self {p q : Moment} (h : Starts p q) : Visits p q.env.depth :=
  ⟨q, .single h, rfl⟩

mutual

/-- Every list that is entered while an expression is evaluated is entered at a moment of the
evaluation. -/
theorem visits_evaluate : ∀ {e : Expr} {env : Environment} {d : ℤ},
    .entered d ∈ (evaluate e env).events → Visits ⟨.expression e, env⟩ d
  | .bool _, _, _, h => by cases h
  | .num _, _, _, h => by cases h
  | .str _, _, _, h => by cases h
  | .foreign _, _, _, h => by cases h
  | .sym n, _, _, h => by
      rw [evaluate, lookup_apply] at h
      cases h
  | .list [], _, _, h => by cases h
  | .list (head :: es), env, d, h => by
      cases head with
      | sym n =>
          rw [evaluate] at h
          rcases counted_cases _ env with ⟨-, hrun⟩ | ⟨hlt, hrun⟩
          · -- the limit is reached, and nothing is entered
            rw [hrun] at h
            cases h
          · rw [hrun] at h
            cases hb : Builtin.ofName? n with
            | none =>
                have hstep : Starts ⟨.expression (.list (.sym n :: es)), env⟩ _ :=
                  .refusal hb hlt
                rw [hb] at h
                simp only [uncallable_apply, List.mem_singleton, Event.entered.injEq] at h
                exact h ▸ hstep.visits_self
            | some b =>
                have hstep : Starts ⟨.expression (.list (.sym n :: es)), env⟩ _ :=
                  .call hb hlt
                rw [hb] at h
                -- the list itself is entered first, all others while its form is called
                rcases List.mem_cons.mp h with heq | h
                · cases heq
                  exact hstep.visits_self
                · exact hstep.visits (visits_applyForm (entered_of_dispatched h))
      | _ => exact absurd h not_mem_events_refuse
  termination_by e => sizeOf e

theorem visits_applyForm : ∀ {b : Builtin} {es : List Expr} {env : Environment} {d : ℤ},
    .entered d ∈ (applyForm b es env).events → Visits ⟨.form b es, env⟩ d
  | .add, es, _, _, h => by
      rw [applyForm] at h
      rcases mem_events_bind h with h | ⟨x, -, h⟩
      · exact absurd h not_mem_events_sum
      · cases h
  | .define, [target, e], env, d, h => by
      cases target with
      | sym n =>
          rcases mem_events_bind h with h | ⟨v, -, h⟩
          · exact Starts.defined.visits (visits_evaluate h)
          · -- the end of a definition enters no list
            have hend : (.entered d : Event) ∈ (declare n v (evaluate e env).env).events := h
            simp [declare_apply] at hend
      | _ => exact absurd h not_mem_events_refuse
  | .define, [], _, _, h => by cases h
  | .define, [_], _, _, h => by cases h
  | .define, _ :: _ :: _ :: _, _, _, h => by cases h
  | .assign, [target, e], env, d, h => by
      cases target with
      | sym n =>
          rcases mem_events_bind h with h | ⟨v, -, h⟩
          · exact Starts.assigned.visits (visits_evaluate h)
          · rcases mem_events_bind h with h | ⟨_, -, h⟩
            · rcases assign_cases n v (evaluate e env).env with ⟨-, hrun⟩ | ⟨level, -, hrun⟩
              · rw [hrun] at h
                cases h
              · simp [hrun] at h
            · cases h
      | _ => exact absurd h not_mem_events_refuse
  | .assign, [], _, _, h => by cases h
  | .assign, [_], _, _, h => by cases h
  | .assign, _ :: _ :: _ :: _, _, _, h => by cases h
  | .letIn, [], _, _, h => by cases h
  | .letIn, e :: es, env, d, h => by
      cases e with
      | list pairs =>
          rcases mem_events_bind h with h | ⟨f, hf, h⟩
          · exact Starts.bindings.visits (visits_bindAll h)
          · exact (Starts.body hf).visits (visits_sequence (entered_of_within h))
      | _ => exact absurd h not_mem_events_refuse
  | .sequence, _, _, _, h => visits_sequence h
  termination_by _ es => sizeOf es + 1

theorem visits_sequence : ∀ {es : List Expr} {env : Environment} {d : ℤ},
    .entered d ∈ (applyForm .sequence es env).events → Visits ⟨.form .sequence es, env⟩ d
  | [], _, _, h => by cases h
  | [_], _, _, h => Starts.first.visits (visits_evaluate h)
  | e :: f :: es, env, d, h => by
      rcases mem_events_bind h with h | ⟨v, hv, h⟩
      · exact Starts.first.visits (visits_evaluate h)
      · exact (Starts.others hv).visits (visits_sequence h)
  termination_by es => sizeOf es

theorem visits_bindAll : ∀ {f : Frame} {pairs : List Expr} {env : Environment} {d : ℤ},
    .entered d ∈ (bindAll f pairs env).events → Visits ⟨.bindings f pairs, env⟩ d
  | _, [], _, _, h => by cases h
  | f, pair :: pairs, env, d, h => by
      by_cases hp : ∃ n e, pair = .list [.sym n, e]
      · obtain ⟨n, e, rfl⟩ := hp
        rcases mem_events_bind h with h | ⟨v, hv, h⟩
        · exact Starts.value.visits (visits_evaluate h)
        · exact (Starts.otherBindings hv).visits (visits_bindAll h)
      · rw [bindAll_of_not_pair f pairs hp] at h
        exact absurd h not_mem_events_refuse
  termination_by _ pairs => sizeOf pairs

end

/-- **No list is entered above the limit**, if the count is not above it at the beginning. -/
theorem depth_le_of_entered {e : Expr} {env : Environment} {d : ℤ}
    (h : .entered d ∈ (evaluate e env).events) (hle : env.depth ≤ env.maxDepth) :
    d ≤ env.maxDepth := by
  obtain ⟨q, hq, rfl⟩ := visits_evaluate h
  calc q.env.depth
      ≤ q.env.maxDepth := hq.depth_le hle
    _ = env.maxDepth := hq.maxDepth

end MiniLisp
