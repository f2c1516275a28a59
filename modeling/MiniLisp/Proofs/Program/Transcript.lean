import Mathlib.Tactic
import MiniLisp.Program

set_option autoImplicit false

/-! # Transcripts put together

Running expressions one after the other is running the first ones and then, in the environment
that they leave, the others (`runExprs_append`): a transcript is put together from those of its
parts by `Transcript.followedBy`. A text is run in two parts as well, its expressions and the
failure to read on (`runViewing_eq`), and texts can be run in turn (`runTexts`).

What one expression keeps of an environment, and what is asked of each result, is then kept and
met by a whole run (`meets_runExprs`).
-/

namespace MiniLisp

namespace Transcript

variable {α : Type}

/-- The transcript of a run of nothing. -/
def empty (env : Environment) : Transcript α := ⟨[], none, env, []⟩

/-- The transcript with what comes after it in the environment that it leaves. Nothing comes after
a value that is no expression. -/
def followedBy (t : Transcript α) (next : Environment → Transcript α) : Transcript α :=
  match t.escaped with
  | some _ => t
  | none =>
      let u := next t.env
      ⟨t.elements ++ u.elements, u.escaped, u.env, t.events ++ u.events⟩

theorem followedBy_of_escaped {t : Transcript α} {k : Foreign.Kind} (h : t.escaped = some k)
    (next : Environment → Transcript α) : t.followedBy next = t := by
  rw [followedBy, h]

theorem followedBy_of_not_escaped {t : Transcript α} (h : t.escaped = none)
    (next : Environment → Transcript α) :
    t.followedBy next =
      ⟨t.elements ++ (next t.env).elements, (next t.env).escaped, (next t.env).env,
        t.events ++ (next t.env).events⟩ := by
  rw [followedBy, h]

theorem followedBy_empty (t : Transcript α) : t.followedBy empty = t := by
  cases h : t.escaped with
  | some k => exact followedBy_of_escaped h empty
  | none =>
      rw [followedBy_of_not_escaped h, empty, List.append_nil, List.append_nil, ← h]

theorem followedBy_congr {t : Transcript α} {next next' : Environment → Transcript α}
    (h : next t.env = next' t.env) : t.followedBy next = t.followedBy next' := by
  rw [followedBy, followedBy, h]

theorem followedBy_assoc (t : Transcript α) (next after : Environment → Transcript α) :
    (t.followedBy next).followedBy after = t.followedBy fun env => (next env).followedBy after := by
  cases h : t.escaped with
  | some k => rw [followedBy_of_escaped h, followedBy_of_escaped h, followedBy_of_escaped h]
  | none =>
      rw [followedBy_of_not_escaped h, followedBy_of_not_escaped h]
      cases hu : (next t.env).escaped with
      | some k =>
          rw [followedBy_of_escaped hu, followedBy_of_escaped rfl, hu]
      | none =>
          rw [followedBy_of_not_escaped hu, followedBy_of_not_escaped rfl, List.append_assoc,
            List.append_assoc]

/-! ## What is asked of a transcript -/

/-- What is asked of a transcript: a property of the environment that it leaves, one of each of its
elements, and one of the kind of the value that ended it, if one did. -/
structure Meets (inv : Environment → Prop) (element : Except Failure α → Prop)
    (escape : Foreign.Kind → Prop) (t : Transcript α) : Prop where
  env : inv t.env
  elements : ∀ x ∈ t.elements, element x
  escaped : ∀ k, t.escaped = some k → escape k

variable {inv : Environment → Prop} {element : Except Failure α → Prop}
  {escape : Foreign.Kind → Prop}

theorem meets_empty {env : Environment} (h : inv env) :
    Meets inv element escape (empty env) :=
  ⟨h, fun x hx => (by cases hx), fun k hk => (by cases hk)⟩

theorem Meets.followedBy {t : Transcript α} (ht : Meets inv element escape t)
    {next : Environment → Transcript α}
    (hnext : ∀ env, inv env → Meets inv element escape (next env)) :
    Meets inv element escape (t.followedBy next) := by
  cases h : t.escaped with
  | some k => rwa [followedBy_of_escaped h]
  | none =>
      have hu := hnext t.env ht.env
      rw [followedBy_of_not_escaped h]
      refine ⟨hu.env, ?_, hu.escaped⟩
      intro x hx
      rcases List.mem_append.mp hx with hx | hx
      · exact ht.elements x hx
      · exact hu.elements x hx

end Transcript

open Transcript

/-! ## Expressions -/

section

variable {α : Type} (view : Expr → Except Foreign α)

/-- The first expression is run, and then the others. -/
theorem runExprs_cons (e : Expr) (es : List Expr) (env : Environment) :
    runExprs view (e :: es) env = (runExprs view [e] env).followedBy (runExprs view es) := by
  simp only [runExprs]
  split
  · rfl
  · rw [followedBy_of_not_escaped rfl]
    simp
  · split
    · rfl
    · rw [followedBy_of_not_escaped rfl]
      simp

/-- **Running expressions is running their parts.** -/
theorem runExprs_append (es fs : List Expr) (env : Environment) :
    runExprs view (es ++ fs) env = (runExprs view es env).followedBy (runExprs view fs) := by
  induction es generalizing env with
  | nil => rfl
  | cons e es ih =>
      rw [List.cons_append, runExprs_cons, runExprs_cons view e es, followedBy_assoc]
      congr 1
      funext env
      exact ih env

/-- A single expression that is run is evaluated, and nothing else happens. -/
theorem runExprs_singleton (e : Expr) (env : Environment) :
    (runExprs view [e] env).env = (evaluate e env).env ∧
      (runExprs view [e] env).events = (evaluate e env).events := by
  simp only [runExprs]
  split
  · exact ⟨rfl, rfl⟩
  · simp
  · split
    · exact ⟨rfl, rfl⟩
    · simp

variable {view}

/-- What every single expression keeps and meets, a run keeps and meets. -/
theorem meets_runExprs {inv : Environment → Prop} {element : Except Failure α → Prop}
    {escape : Foreign.Kind → Prop} {es : List Expr}
    (hstep : ∀ e ∈ es, ∀ env, inv env → Meets inv element escape (runExprs view [e] env))
    {env : Environment} (h : inv env) : Meets inv element escape (runExprs view es env) := by
  induction es generalizing env with
  | nil => exact meets_empty h
  | cons e es ih =>
      rw [runExprs_cons]
      apply Meets.followedBy
      · exact hstep e (by simp) env h
      · intro env henv
        exact ih (fun f hf => hstep f (by simp [hf])) henv

end

theorem runExprs_of_ok {e v : Expr} {env : Environment} (h : (evaluate e env).result = .ok v) :
    runExprs .ok [e] env = ⟨[.ok v], none, (evaluate e env).env, (evaluate e env).events⟩ := by
  simp [runExprs, h]

theorem runExprs_of_failure {e : Expr} {f : Failure} {env : Environment}
    (h : (evaluate e env).result = .error (.failure f)) :
    runExprs .ok [e] env = ⟨[.error f], none, (evaluate e env).env, (evaluate e env).events⟩ := by
  simp [runExprs, h]

/-- What comes of running a single expression. -/
theorem runExprs_singleton_cases (e : Expr) (env : Environment) :
    (∃ v, (evaluate e env).result = .ok v ∧
        runExprs .ok [e] env = ⟨[.ok v], none, (evaluate e env).env, (evaluate e env).events⟩) ∨
      (∃ f, (evaluate e env).result = .error (.failure f) ∧
        runExprs .ok [e] env =
          ⟨[.error f], none, (evaluate e env).env, (evaluate e env).events⟩) ∨
      ∃ k, (evaluate e env).result = .error (.notExpression k) ∧
        runExprs .ok [e] env =
          ⟨[], some k, (evaluate e env).env, (evaluate e env).events⟩ := by
  cases h : (evaluate e env).result with
  | ok v => exact Or.inl ⟨v, rfl, runExprs_of_ok h⟩
  | error f =>
      cases f with
      | failure f => exact Or.inr (Or.inl ⟨f, rfl, runExprs_of_failure h⟩)
      | notExpression k => exact Or.inr (Or.inr ⟨k, rfl, by simp [runExprs, h]⟩)

/-! ## Texts -/

/-- The transcript of a failure to read on, if there is one. -/
def refusal {α : Type} (refused : Option Cause) (env : Environment) : Transcript α :=
  ⟨refused.toList.map fun c => .error (.ofCause c), none, env, []⟩

/-- A text is run by running its expressions and then failing to read on, if it cannot be read. -/
theorem runViewing_eq {α : Type} (view : Expr → Except Foreign α) (t : Text) (env : Environment) :
    runViewing view t env =
      (runExprs view (readText env.maxDepth t).exprs env).followedBy
        (refusal (readText env.maxDepth t).refused) := by
  rw [runViewing]
  generalize runExprs view (readText env.maxDepth t).exprs env = u
  cases h : u.escaped with
  | some k => rw [followedBy_of_escaped h]
  | none =>
      rw [followedBy_of_not_escaped h]
      cases (readText env.maxDepth t).refused with
      | none => simp [refusal, ← h]
      | some c => simp [refusal, ← h]

theorem runText_eq (t : Text) (env : Environment) :
    runText t env =
      (runExprs .ok (readText env.maxDepth t).exprs env).followedBy
        (refusal (readText env.maxDepth t).refused) :=
  runViewing_eq .ok t env

/-! ## The values of a run -/

section

variable {inv : Environment → Prop} {value : Expr → Prop}

/-- A single expression that is evaluated to a value of a class, or fails for a reason of the
language. -/
theorem meets_runExprs_singleton {e : Expr} {env : Environment} (henv : inv (evaluate e env).env)
    (hvalue : ∀ v, (evaluate e env).result = .ok v → value v)
    (hforeign : ∀ k, (evaluate e env).result ≠ .error (.notExpression k)) :
    Meets inv (fun x => ∀ v, x = .ok v → value v) (fun _ => False) (runExprs .ok [e] env) := by
  rcases runExprs_singleton_cases e env with ⟨v, hv, h⟩ | ⟨f, -, h⟩ | ⟨k, hk, -⟩
  · rw [h]
    refine ⟨henv, ?_, by simp⟩
    intro x hx w hw
    obtain rfl : v = w := by
      rw [List.mem_singleton.mp hx] at hw
      exact Except.ok.inj hw
    exact hvalue v hv
  · rw [h]
    exact ⟨henv, by simp, by simp⟩
  · exact absurd hk (hforeign k)

/-- The failure to read on is no value. -/
theorem meets_refusal (refused : Option Cause) {env : Environment} (henv : inv env) :
    Meets inv (fun x : Except Failure Expr => ∀ v, x = .ok v → value v) (fun _ => False)
      (refusal refused env) := by
  refine ⟨henv, ?_, by simp [refusal]⟩
  intro x hx v hv
  obtain ⟨c, -, rfl⟩ := List.mem_map.mp hx
  contradiction

end

/-- Runs texts in turn in one environment. -/
def runTexts : List Text → Environment → Transcript Expr
  | [], env => .empty env
  | t :: ts, env => (runText t env).followedBy fun env => runTexts ts env

end MiniLisp
