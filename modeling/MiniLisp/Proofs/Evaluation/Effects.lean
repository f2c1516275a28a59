import MiniLisp.Proofs.Evaluation.Discipline
import MiniLisp.Proofs.Expr.Structure
import MiniLisp.Proofs.Scope.Stack

set_option autoImplicit false

/-! # Programs without effect

Only a definition and an assignment change what is bound for longer than they run. A `let` pushes a
frame too, but takes it off again before it ends, and a call takes back what it has added to the
count. So a program in which no list is headed by `def` or `set` leaves the environment exactly as
it finds it (`evaluate_effectless`), wherever in the program the evaluation ends.

What is shown of every step is that it restores the whole environment, not that it keeps the number
of frames: then the body of a `let` leaves the frame of the bindings as the innermost one, and
taking it off restores what was there before.
-/

namespace MiniLisp

open Eval

/-- Whether no list in an expression, at any depth, is headed by `def` or `set`. -/
def Expr.Effectless (e : Expr) : Prop := ("def" : Text) ∉ e.heads ∧ ("set" : Text) ∉ e.heads

instance (e : Expr) : Decidable e.Effectless := inferInstanceAs (Decidable (_ ∧ _))

theorem Expr.Effectless.item {es : List Expr} {e : Expr} (h : (Expr.list es).Effectless)
    (he : e ∈ es) : e.Effectless :=
  ⟨fun hdef => h.1 (heads_subset_of_mem he hdef), fun hset => h.2 (heads_subset_of_mem he hset)⟩

/-- Whether a computation leaves every environment as it finds it, with results that have a
property. -/
def Restores {α : Type} (post : α → Prop) (m : Eval α) : Prop :=
  ∀ env : Environment, (m env).env = env ∧ ∀ a, (m env).result = .ok a → post a

namespace Restores

variable {α β : Type} {post : α → Prop}

theorem pure {a : α} (ha : post a) : Restores post (Pure.pure a) := by
  intro env
  refine ⟨rfl, ?_⟩
  rintro b ⟨⟩
  exact ha

theorem bind {next : β → Prop} {m : Eval α} {k : α → Eval β} (hm : Restores post m)
    (hk : ∀ a, post a → Restores next (k a)) : Restores next (m >>= k) := by
  intro env
  obtain ⟨henv, hpost⟩ := hm env
  rcases bind_cases m k env with ⟨f, -, h⟩ | ⟨a, ha, h⟩
  · rw [h]
    exact ⟨henv, fun b hb => by cases hb⟩
  · -- the second computation begins where the first one began
    rw [h, henv]
    exact hk a (hpost a ha) env

/-- A computation that fails at once restores what it finds. -/
theorem of_error {m : Eval α} (h : ∀ env, ∃ f, m env = ⟨.error f, env, []⟩) :
    Restores post m := by
  intro env
  obtain ⟨f, hf⟩ := h env
  rw [hf]
  exact ⟨rfl, fun a ha => by cases ha⟩

theorem refuse (c : Text → Cause) (e : Expr) : Restores post (Eval.refuse c e) := by
  obtain ⟨f, hf⟩ := refuse_apply c e
  exact of_error (fun env => ⟨f, hf env⟩)

theorem lookup (n : Text) : Restores (fun _ => True) (Eval.lookup n) := by
  intro env
  rw [lookup_apply]
  exact ⟨rfl, fun _ _ => trivial⟩

/-- A body that restores the frame of the bindings leaves what was there before it. -/
theorem within {m : Eval Expr} (hm : Restores (fun _ => True) m) (f : Frame) :
    Restores (fun _ => True) (Eval.within f m) := by
  intro env
  refine ⟨?_, fun _ _ => trivial⟩
  obtain ⟨hbody, -⟩ := hm { env with scopes := env.scopes.push f }
  show { (m { env with scopes := env.scopes.push f }).env with
    scopes := (m { env with scopes := env.scopes.push f }).env.scopes.shrink env.scopes.size } = env
  rw [hbody]
  show { env with scopes := (env.scopes.push f).shrink env.scopes.size } = env
  rw [Scopes.shrink_push]

theorem counted {m : Eval Expr} (hm : Restores (fun _ => True) m) :
    Restores (fun _ => True) (Eval.counted m) := by
  intro env
  refine ⟨?_, fun _ _ => trivial⟩
  rcases counted_cases m env with ⟨-, h⟩ | ⟨-, h⟩
  · rw [h]
  · obtain ⟨hcall, -⟩ := hm { env with depth := env.depth + 1 }
    rw [h]
    show { (m { env with depth := env.depth + 1 }).env with
      depth := (m { env with depth := env.depth + 1 }).env.depth - 1 } = env
    rw [hcall]
    simp

theorem dispatched (b : Builtin) (k : Nat) {m : Eval Expr} (hm : Restores (fun _ => True) m) :
    Restores (fun _ => True) (Eval.dispatched b k m) := by
  intro env
  refine ⟨?_, fun _ _ => trivial⟩
  rcases dispatched_cases b k m env with ⟨f, -, h⟩ | ⟨a, -, h⟩
  · rw [h]
    exact (hm env).1
  · rw [h]
    exact (hm env).1

end Restores

/-- Every computation of an evaluation without definitions and assignments leaves the environment as
it finds it. -/
def effectless : Discipline where
  code := Expr.Effectless
  form b := b ≠ .define ∧ b ≠ .assign
  value _ := True
  holds := Restores
  code_item := Expr.Effectless.item
  form_of_code := by
    rintro n es b ⟨hdef, hset⟩ hb
    obtain rfl := Builtin.name_of_ofName? hb
    have hhead := Expr.mem_heads_head b.name es
    constructor
    · rintro rfl
      exact hdef hhead
    · rintro rfl
      exact hset hhead
  value_bool _ := trivial
  value_num _ := trivial
  value_str _ := trivial
  value_nil := trivial
  pure := Restores.pure
  bind := Restores.bind
  fail _ := Restores.of_error (fun _ => ⟨_, rfl⟩)
  refuse c e _ := Restores.refuse c e
  foreign _ := Restores.of_error (fun _ => ⟨_, rfl⟩)
  lookup _ := Restores.lookup _
  assign h := absurd rfl h.2
  declare h := absurd rfl h.1
  within _ hm := hm.within _
  counted := Restores.counted
  dispatched hm := hm.dispatched _ _
  uncallable _ := Restores.of_error (fun env => ⟨_, uncallable_apply _ env⟩)

theorem env_evaluate_of_effectless {e : Expr} (h : e.Effectless) (env : Environment) :
    (evaluate e env).env = env :=
  (effectless.evaluate h env).1

/-- **A program without definitions and assignments has no effect.** If no list in it is headed by
`def` or `set`, its evaluation leaves every frame with its names, their order and their values, and
the counts as well, whether it gives a value or fails. So a second evaluation goes like the first
one. -/
theorem evaluate_effectless (e : Expr) (env : Environment) (h : e.Effectless) :
    (evaluate e env).env = env ∧ evaluate e (evaluate e env).env = evaluate e env := by
  have henv := env_evaluate_of_effectless h env
  exact ⟨henv, by rw [henv]⟩

/-- The body of an inner `let` fails, where two frames have to be taken off. -/
theorem evaluate_effectless_nested :
    let env : Environment := .ofRoot (.ofBindings [("x", .nil), ("y", .bool false)]) 100
    let e : Expr := .list [.sym "let", .list [.list [.sym "x", .bool true]],
      .list [.sym "let", .list [.list [.sym "y", .sym "x"]], .sym "z"]]
    e.Effectless ∧
      (evaluate e env).result =
        .error (.failure ⟨.unbound "z", [.inForm .letIn, .inForm .letIn]⟩) ∧
      (evaluate e env).env = env := by
  intro env e
  have h : e.Effectless := by decide
  exact ⟨h, rfl, (evaluate_effectless e env h).1⟩

end MiniLisp
