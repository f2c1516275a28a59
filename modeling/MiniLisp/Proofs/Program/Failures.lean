import MiniLisp.Proofs.Evaluation.Values
import MiniLisp.Proofs.Program.Transcript
import MiniLisp.Proofs.Reader.Reading

set_option autoImplicit false

/-! # Programs fail for reasons of the language

A value of an embedding program is refused wherever it would have to be looked at, and such a
refusal is no failure of the language. In an environment where no name has such a value, or a list
that holds one at any depth, there is nothing to refuse: evaluating an expression, calling a form
and running a text give values of the language or fail for its reasons, and leave such an
environment behind (`proper_programs`).

The expressions of a text need no hypothesis, since the reader makes no others.
-/

namespace MiniLisp

open Eval Scopes Transcript

/-! ## Expressions of the language -/

/-- Whether an expression is one of the language: it holds no foreign value, at any depth. -/
def Expr.Proper (e : Expr) : Prop := e.foreign? = none

/-- Whether all the values in an environment are expressions of the language. -/
def Environment.Proper (env : Environment) : Prop := AllValues Expr.Proper env.scopes

/-- Where no name has a value, there is none to refuse. -/
theorem Environment.proper_ofRoot_empty (limit : ℤ) : (Environment.ofRoot .empty limit).Proper := by
  intro f hf b hb
  rw [List.mem_singleton.mp hf] at hb
  cases hb

theorem Expr.proper_list_iff {es : List Expr} : (list es).Proper ↔ ∀ e ∈ es, e.Proper :=
  firstForeign?_eq_none_iff

/-- The reader makes expressions of the language only. -/
theorem proper_of_mem_readText {limit : ℤ} {t : Text} {e : Expr}
    (he : e ∈ (readText limit t).exprs) : e.Proper :=
  Expr.foreign?_eq_none (fun l hl => (alone_of_mem_readText he l hl).foreign?_eq_none)

/-- Expressions of the language as programs, and as values. -/
def properVocabulary : Vocabulary where
  code := Expr.Proper
  value := Expr.Proper
  code_item h he := Expr.proper_list_iff.mp h _ he
  code_not_foreign h := h
  value_not_foreign h := h
  value_bool _ := rfl
  value_num _ := rfl
  value_str _ := rfl
  value_nil := rfl

/-! ## Outcomes in the language -/

/-- What a run comes to that stays in the language: an expression of the language or a failure for a
reason of the language, and in both cases an environment of such expressions. -/
structure StaysProper (r : Run Fault Expr) : Prop where
  outcome : (∃ v, r.result = .ok v ∧ v.Proper) ∨ ∃ f, r.result = .error (.failure f)
  env : r.env.Proper

theorem KeepsTo.staysProper {r : Run Fault Expr} (h : KeepsTo Expr.Proper Expr.Proper r) :
    StaysProper r := by
  refine ⟨?_, h.values⟩
  cases hr : r.result with
  | ok v => exact Or.inl ⟨v, rfl, h.ok v hr⟩
  | error f =>
      cases f with
      | failure f => exact Or.inr ⟨f, rfl⟩
      | notExpression k => exact absurd hr (h.not_foreign k)

theorem confined_applyForm (b : Builtin) {es : List Expr} (hes : ∀ e ∈ es, e.Proper) :
    Confined Expr.Proper Expr.Proper (applyForm b es) :=
  properVocabulary.discipline.applyForm trivial hes

/-- A run of a text gives expressions of the language and failures, and no other value ends it. -/
theorem meets_runText_proper (t : Text) {env : Environment} (henv : env.Proper) :
    Meets Environment.Proper (fun x => ∀ v, x = .ok v → v.Proper) (fun _ => False)
      (runText t env) := by
  rw [runText_eq]
  apply Meets.followedBy
  · refine meets_runExprs (fun e he env' henv' => ?_) henv
    have hrun := properVocabulary.evaluate (proper_of_mem_readText he) henv'
    exact meets_runExprs_singleton hrun.values hrun.ok hrun.not_foreign
  · exact fun env' henv' => meets_refusal _ henv'

/-- **Programs of the language fail for reasons of the language.** Where all the values in the
environment are expressions of the language, evaluating such an expression and calling a form with
such arguments either gives such an expression or fails for a reason of the language. Running a text
gives such expressions and such failures, and nothing else ends it. All the values in the
environment that is left are such expressions again, also after a failure. -/
theorem proper_programs :
    (∀ (e : Expr) (env : Environment), e.Proper → env.Proper → StaysProper (evaluate e env)) ∧
      (∀ (b : Builtin) (es : List Expr) (env : Environment), (∀ e ∈ es, e.Proper) → env.Proper →
        StaysProper (applyForm b es env)) ∧
      ∀ (t : Text) (env : Environment), env.Proper →
        (runText t env).escaped = none ∧
          (∀ x ∈ (runText t env).elements,
            (∃ v : Expr, x = .ok v ∧ v.Proper) ∨ ∃ f : Failure, x = .error f) ∧
          (runText t env).env.Proper := by
  refine ⟨fun e env he henv => (properVocabulary.evaluate he henv).staysProper,
    fun b es env hes henv => (confined_applyForm b hes env henv).staysProper, fun t env henv => ?_⟩
  have hrun := meets_runText_proper t henv
  refine ⟨Option.eq_none_iff_forall_ne_some.mpr hrun.escaped, fun x hx => ?_, hrun.env⟩
  cases x with
  | ok v => exact Or.inl ⟨v, rfl, hrun.elements _ hx v rfl⟩
  | error f => exact Or.inr ⟨f, rfl⟩

/-- A list is shown in the message that refuses to add it; its name is no foreign value. -/
theorem proper_programs_sum_of_list :
    let env : Environment := .ofRoot (.ofBindings [("x", .list [.sym "a"])]) 100
    env.Proper ∧
      (evaluate (.list [.sym "+", .sym "x"]) env).result =
        .error (.failure ⟨.notNumber "(a)", [.inForm .add]⟩) ∧
      StaysProper (evaluate (.list [.sym "+", .sym "x"]) env) ∧
      StaysProper (applyForm .add [.sym "x"] env) ∧
      (runText "(+ x)" env).escaped = none := by
  intro env
  have henv : env.Proper := by
    intro f hf b hb
    rw [List.mem_singleton.mp hf] at hb
    rw [List.mem_singleton.mp hb]
    rfl
  obtain ⟨hevaluate, hcall, hrun⟩ := proper_programs
  refine ⟨henv, rfl, hevaluate _ env rfl henv, hcall .add [.sym "x"] env ?_ henv,
    (hrun "(+ x)" env henv).1⟩
  exact List.forall_mem_singleton.mpr rfl

end MiniLisp
