import MiniLisp.Proofs.Evaluation.Discipline
import MiniLisp.Proofs.Scope.Stack

set_option autoImplicit false

/-! # The values that come up

A class of programs and a class of values belong together (`Vocabulary`) if the evaluation of such
a program, where all names have such values, makes no others: the strings of a program are values,
and so are the truth values, the numbers and the empty list, which an evaluation makes by itself.
If neither class has anything in it that is no expression, no evaluation meets such a thing.

`Vocabulary.evaluate` is the induction over programs, on success and on failure. An evaluation puts
a value that is not its own nowhere but in frames, from which it can only come back.
-/

namespace MiniLisp

open Eval Scopes

/-- A class of programs and a class of values that is closed under evaluating them. -/
structure Vocabulary where
  /-- The expressions that may stand in a program. -/
  code : Expr → Prop
  /-- The values that names may have. -/
  value : Expr → Prop
  code_item : ∀ {es : List Expr} {e : Expr}, code (.list es) → e ∈ es → code e
  code_not_foreign : ∀ {e}, code e → e.foreign? = none
  value_not_foreign : ∀ {v}, value v → v.foreign? = none
  value_bool : ∀ b, value (.bool b)
  value_num : ∀ x, value (.num x)
  value_str : ∀ {s}, code (.str s) → value (.str s)
  value_nil : value .nil

/-- Whether a fault is that a value is no expression. -/
def Fault.isForeign : Fault → Bool
  | .failure _ => false
  | .notExpression _ => true

theorem Fault.isForeign_addNote (n : Note) (f : Fault) : (f.addNote n).isForeign = f.isForeign := by
  cases f <;> rfl

/-- What a run comes to that keeps to a class of values: all values are in the class, a result has a
property of its own, and a fault is one of the language. -/
structure KeepsTo (value : Expr → Prop) {α : Type} (post : α → Prop) (r : Run Fault α) : Prop where
  values : AllValues value r.env.scopes
  ok : ∀ a, r.result = .ok a → post a
  error : ∀ f, r.result = .error f → f.isForeign = false

section

variable {value : Expr → Prop} {α : Type} {post : α → Prop} {env : Environment}
  {events : List Event}

theorem KeepsTo.not_foreign {r : Run Fault α} (h : KeepsTo value post r) (k : Foreign.Kind) :
    r.result ≠ .error (.notExpression k) := by
  intro hk
  have := h.error _ hk
  contradiction

theorem KeepsTo.of_ok {a : α} (hvalues : AllValues value env.scopes) (ha : post a) :
    KeepsTo value post ⟨.ok a, env, events⟩ := by
  refine ⟨hvalues, ?_, fun f hf => (by cases hf)⟩
  rintro b ⟨⟩
  exact ha

theorem KeepsTo.of_error {f : Fault} (hvalues : AllValues value env.scopes)
    (hf : f.isForeign = false) : KeepsTo value post ⟨.error f, env, events⟩ := by
  refine ⟨hvalues, fun a ha => (by cases ha), ?_⟩
  rintro g ⟨⟩
  exact hf

end

/-- Whether a computation keeps to a class of values where all values are in the class. -/
def Confined (value : Expr → Prop) {α : Type} (post : α → Prop) (m : Eval α) : Prop :=
  ∀ env : Environment, AllValues value env.scopes → KeepsTo value post (m env)

namespace Confined

variable {value : Expr → Prop} {α β : Type} {post : α → Prop}

theorem pure {a : α} (ha : post a) : Confined value post (Pure.pure a) :=
  fun _ h => .of_ok h ha

theorem bind {next : β → Prop} {m : Eval α} {k : α → Eval β} (hm : Confined value post m)
    (hk : ∀ a, post a → Confined value next (k a)) : Confined value next (m >>= k) := by
  intro env henv
  have hrun := hm env henv
  rcases bind_cases m k env with ⟨f, hf, h⟩ | ⟨a, ha, h⟩
  · rw [h]
    exact .of_error hrun.values (hrun.error f hf)
  · rw [h]
    have hnext := hk a (hrun.ok a ha) (m env).env hrun.values
    exact ⟨hnext.values, hnext.ok, hnext.error⟩

theorem fail (c : Cause) : Confined value post (Eval.fail c) := fun _ h => .of_error h rfl

theorem refuse (c : Text → Cause) {e : Expr} (he : e.foreign? = none) :
    Confined value post (Eval.refuse c e) := by
  rw [Eval.refuse, Expr.shown, he]
  exact fail (c e.display)

theorem lookup (n : Text) : Confined value value (Eval.lookup n) := by
  intro env henv
  rw [lookup_apply]
  cases hv : env.scopes.get? n with
  | none => exact .of_error henv rfl
  | some v => exact .of_ok henv (henv.get? hv)

theorem assign (n : Text) {v : Expr} (hv : value v) :
    Confined value (fun _ => True) (Eval.assign n v) := by
  intro env henv
  rcases assign_cases n v env with ⟨-, h⟩ | ⟨level, -, h⟩
  · rw [h]
    exact .of_error henv rfl
  · rw [h]
    exact .of_ok (henv.put n hv) trivial

theorem declare (n : Text) {v : Expr} (hv : value v) : Confined value value (Eval.declare n v) := by
  intro env henv
  refine .of_ok (henv.push (fun b hb => ?_)) hv
  rcases Frame.mem_bindings_put hb with rfl | hb
  · exact hv
  · cases hb

theorem within {f : Frame} {m : Eval Expr} (hf : ∀ b ∈ f.bindings, value b.2)
    (hm : Confined value value m) : Confined value value (Eval.within f m) := by
  intro env henv
  have hbody := hm { env with scopes := env.scopes.push f } (henv.push hf)
  exact ⟨hbody.values.shrink env.scopes.size, hbody.ok, hbody.error⟩

theorem counted {m : Eval Expr} (hm : Confined value value m) :
    Confined value value (Eval.counted m) := by
  intro env henv
  rcases counted_cases m env with ⟨-, h⟩ | ⟨-, h⟩
  · rw [h]
    exact .of_error henv rfl
  · rw [h]
    have hrun := hm { env with depth := env.depth + 1 } henv
    exact ⟨hrun.values, hrun.ok, hrun.error⟩

theorem dispatched (b : Builtin) (k : Nat) {m : Eval Expr} (hm : Confined value value m) :
    Confined value value (Eval.dispatched b k m) := by
  intro env henv
  have hrun := hm env henv
  rcases dispatched_cases b k m env with ⟨f, hf, h⟩ | ⟨a, ha, h⟩
  · rw [h]
    exact .of_error hrun.values ((Fault.isForeign_addNote _ f).trans (hrun.error f hf))
  · rw [h]
    exact .of_ok hrun.values (hrun.ok a ha)

theorem uncallable (n : Text) : Confined value post (Eval.uncallable n) := by
  intro env henv
  rw [uncallable_apply]
  exact .of_error henv rfl

end Confined

namespace Vocabulary

variable (V : Vocabulary)

/-- Every computation of an evaluation keeps to the values of a vocabulary. -/
def discipline : Discipline where
  code := V.code
  form _ := True
  value := V.value
  holds := Confined V.value
  code_item := V.code_item
  form_of_code _ _ := trivial
  value_bool := V.value_bool
  value_num := V.value_num
  value_str := V.value_str
  value_nil := V.value_nil
  pure := Confined.pure
  bind := Confined.bind
  fail := Confined.fail
  refuse c _ he := Confined.refuse c (he.elim V.code_not_foreign V.value_not_foreign)
  foreign h := by cases V.code_not_foreign h
  lookup _ := Confined.lookup _
  assign _ _ hv := Confined.assign _ hv
  declare _ _ hv := Confined.declare _ hv
  within hf hm := Confined.within (fun b hb => (hf b hb).2) hm
  counted := Confined.counted
  dispatched hm := Confined.dispatched _ _ hm
  uncallable _ := Confined.uncallable _

/-- **The values of an evaluation.** Where all values are those of a vocabulary, the value of a
program of the vocabulary is one of them, and so are all values afterwards; if the evaluation fails,
it fails for a reason of the language. -/
theorem evaluate {e : Expr} (he : V.code e) {env : Environment}
    (henv : AllValues V.value env.scopes) :
    KeepsTo V.value V.value (MiniLisp.evaluate e env) :=
  V.discipline.evaluate he env henv

end Vocabulary

end MiniLisp
