import MiniLisp.Proofs.Evaluation.Course
import MiniLisp.Proofs.Evaluation.Discipline

set_option autoImplicit false

/-! # What an evaluation does to its environment

Many properties of an evaluation are about the environment that it finds, its events and the
environment that it leaves, whatever its value is. Such a relation (`Passage`) holds of every
evaluation if it holds of the steps that change the environment or have an event that counts, and
of courses that come one after the other. All other steps leave the environment as it is and have
only quiet events, or none.
-/

namespace MiniLisp

open Eval

/-- A relation between the environment that a computation finds, its events and the environment that
it leaves, with what makes it a property of every evaluation. -/
structure Passage where
  rel : Environment → List Event → Environment → Prop
  quiet : ∀ {env : Environment} {events : List Event}, (∀ e ∈ events, e.isQuiet = true) →
    rel env events env
  trans : ∀ {env₁ env₂ env₃ : Environment} {events more : List Event}, rel env₁ events env₂ →
    rel env₂ more env₃ → rel env₁ (events ++ more) env₃
  assigned : ∀ {env : Environment} {n : Text} {level : Nat} (v : Expr),
    Scopes.level? n env.scopes.frames = some level →
      rel env [.assigned n v level] { env with scopes := env.scopes.put n v }
  declared : ∀ (env : Environment) (n : Text) (v : Expr),
    rel env (declare n v env).events (declare n v env).env
  within : ∀ {env : Environment} {f : Frame} {m : Eval Expr},
    rel { env with scopes := env.scopes.push f }
      (m { env with scopes := env.scopes.push f }).events
      (m { env with scopes := env.scopes.push f }).env →
    rel env (Eval.within f m env).events (Eval.within f m env).env
  counted : ∀ {env left : Environment} {events : List Event}, env.depth < env.maxDepth →
    rel { env with depth := env.depth + 1 } events left →
      rel env (.entered (env.depth + 1) :: events) { left with depth := left.depth - 1 }

namespace Passage

variable (P : Passage)

/-- Whether a computation has the relation everywhere, with results that have a property. -/
def Holds {α : Type} (post : α → Prop) (m : Eval α) : Prop :=
  ∀ env : Environment, P.rel env (m env).events (m env).env ∧
    ∀ a, (m env).result = .ok a → post a

variable {P} {α β : Type} {post : α → Prop}

theorem Holds.pure {a : α} (ha : post a) : P.Holds post (Pure.pure a) := by
  intro env
  refine ⟨P.quiet (by simp [pure_apply]), ?_⟩
  intro b hb
  cases hb
  exact ha

theorem Holds.bind {next : β → Prop} {m : Eval α} {k : α → Eval β} (hm : P.Holds post m)
    (hk : ∀ a, post a → P.Holds next (k a)) : P.Holds next (m >>= k) := by
  intro env
  obtain ⟨hrun, hpost⟩ := hm env
  rcases bind_cases m k env with ⟨f, -, h⟩ | ⟨a, ha, h⟩
  · rw [h]
    exact ⟨hrun, fun b hb => by cases hb⟩
  · rw [h]
    obtain ⟨hrun', hnext⟩ := hk a (hpost a ha) (m env).env
    exact ⟨P.trans hrun hrun', hnext⟩

/-- A computation that fails at once changes nothing. -/
theorem Holds.of_error {m : Eval α}
    (h : ∀ env, ∃ f, m env = ⟨.error f, env, []⟩) : P.Holds post m := by
  intro env
  obtain ⟨f, hf⟩ := h env
  rw [hf]
  exact ⟨P.quiet (by simp), fun a ha => by cases ha⟩

theorem Holds.raise (f : Fault) : P.Holds post (Eval.raise f) :=
  .of_error (fun _ => ⟨f, rfl⟩)

theorem Holds.refuse (c : Text → Cause) (e : Expr) : P.Holds post (Eval.refuse c e) := by
  obtain ⟨f, hf⟩ := refuse_apply c e
  exact .of_error (fun env => ⟨f, hf env⟩)

theorem Holds.uncallable (n : Text) : P.Holds post (Eval.uncallable n) :=
  .of_error (fun env => ⟨_, uncallable_apply n env⟩)

theorem Holds.lookup (n : Text) : P.Holds (fun _ => True) (Eval.lookup n) := by
  intro env
  rw [lookup_apply]
  exact ⟨P.quiet (by simp), fun _ _ => trivial⟩

theorem Holds.assign (n : Text) (v : Expr) : P.Holds (fun _ => True) (Eval.assign n v) := by
  intro env
  rcases assign_cases n v env with ⟨-, h⟩ | ⟨level, hl, h⟩
  · rw [h]
    exact ⟨P.quiet (by simp), fun _ _ => trivial⟩
  · rw [h]
    exact ⟨P.assigned v hl, fun _ _ => trivial⟩

theorem Holds.declare (n : Text) (v : Expr) : P.Holds (fun _ => True) (Eval.declare n v) :=
  fun env => ⟨P.declared env n v, fun _ _ => trivial⟩

theorem Holds.within {m : Eval Expr} (hm : P.Holds (fun _ => True) m) (f : Frame) :
    P.Holds (fun _ => True) (Eval.within f m) :=
  fun env => ⟨P.within (hm { env with scopes := env.scopes.push f }).1, fun _ _ => trivial⟩

theorem Holds.counted {m : Eval Expr} (hm : P.Holds (fun _ => True) m) :
    P.Holds (fun _ => True) (Eval.counted m) := by
  intro env
  rcases counted_cases m env with ⟨-, h⟩ | ⟨hlt, h⟩
  · rw [h]
    exact ⟨P.quiet (by simp), fun _ _ => trivial⟩
  · rw [h]
    exact ⟨P.counted hlt (hm { env with depth := env.depth + 1 }).1, fun _ _ => trivial⟩

theorem Holds.dispatched (b : Builtin) (k : Nat) {m : Eval Expr}
    (hm : P.Holds (fun _ => True) m) : P.Holds (fun _ => True) (Eval.dispatched b k m) := by
  intro env
  have hcall : P.rel env [.dispatched b k] env := P.quiet (by simp [Event.isQuiet])
  rcases dispatched_cases b k m env with ⟨f, -, h⟩ | ⟨a, -, h⟩
  · rw [h]
    exact ⟨P.trans hcall (hm env).1, fun _ _ => trivial⟩
  · rw [h]
    have hback : P.rel (m env).env [.returned b] (m env).env := P.quiet (by simp [Event.isQuiet])
    exact ⟨P.trans hcall (P.trans (hm env).1 hback), fun _ _ => trivial⟩

variable (P)

/-- Every computation of an evaluation has the relation. -/
def discipline : Discipline where
  code _ := True
  form _ := True
  value _ := True
  holds := P.Holds
  code_item _ _ := trivial
  form_of_code _ _ := trivial
  value_bool _ := trivial
  value_num _ := trivial
  value_str _ := trivial
  value_nil := trivial
  pure := Holds.pure
  bind := Holds.bind
  fail c := Holds.raise (.ofCause c)
  refuse c e _ := Holds.refuse c e
  foreign _ := Holds.raise _
  lookup _ := Holds.lookup _
  assign _ _ _ := Holds.assign _ _
  declare _ _ _ := Holds.declare _ _
  within _ hm := Holds.within hm _
  counted := Holds.counted
  dispatched hm := Holds.dispatched _ _ hm
  uncallable _ := Holds.uncallable _

theorem holds_evaluate (e : Expr) : P.Holds (fun _ => True) (MiniLisp.evaluate e) :=
  P.discipline.evaluate trivial

theorem holds_applyForm (b : Builtin) (es : List Expr) :
    P.Holds (fun _ => True) (MiniLisp.applyForm b es) :=
  P.discipline.applyForm trivial (fun _ _ => trivial)

theorem holds_bindAll (f : Frame) (pairs : List Expr) :
    P.Holds P.discipline.Admits (MiniLisp.bindAll f pairs) :=
  P.discipline.bindAll (fun _ _ => ⟨trivial, trivial⟩) (fun _ _ => trivial)

/-- **Every evaluation** has the relation. -/
theorem evaluate (e : Expr) (env : Environment) :
    P.rel env (MiniLisp.evaluate e env).events (MiniLisp.evaluate e env).env :=
  (P.holds_evaluate e env).1

/-- So has every call of a form. -/
theorem applyForm (b : Builtin) (es : List Expr) (env : Environment) :
    P.rel env (MiniLisp.applyForm b es env).events (MiniLisp.applyForm b es env).env :=
  (P.holds_applyForm b es env).1

/-- So have the bindings of a `let`. -/
theorem bindAll (f : Frame) (pairs : List Expr) (env : Environment) :
    P.rel env (MiniLisp.bindAll f pairs env).events (MiniLisp.bindAll f pairs env).env :=
  (P.holds_bindAll f pairs env).1

end Passage

end MiniLisp
