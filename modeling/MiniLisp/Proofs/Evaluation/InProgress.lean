import MiniLisp.Proofs.Evaluation.Discipline

set_option autoImplicit false

/-! # The calls in progress

The events of an evaluation tell which forms are called and which of these have given their value.
Those that have not are in progress (`Event.inProgress`). A failure leaves them in progress, and it
is noted by each of them: the notes and the calls in progress grow together in every step (`Noted`),
so they agree at the end (`inProgress_evaluate`).
-/

namespace MiniLisp

open Eval

/-! ## Events -/

namespace Event

/-- The forms whose calls are in progress after an event, the latest first, where `calls` are those
before it. -/
def track (calls : List Builtin) : Event → List Builtin
  | .dispatched b _ => b :: calls
  | .returned _ => calls.tail
  | _ => calls

/-- The forms whose calls are in progress after a course of events. -/
def inProgress (calls : List Builtin) (events : List Event) : List Builtin :=
  events.foldl track calls

theorem inProgress_append (calls : List Builtin) (events more : List Event) :
    inProgress calls (events ++ more) = inProgress (inProgress calls events) more :=
  List.foldl_append

theorem inProgress_popEvents (calls : List Builtin) (n size : Nat) :
    inProgress calls (popEvents n size) = calls := by
  unfold popEvents
  induction (List.range size).reverse.takeWhile (n ≤ ·) with
  | nil => rfl
  | cons k ks ih => exact ih

end Event

open Event

/-! ## Computations -/

/-- The notes of a fault. What is no failure of the language has none. -/
def Fault.notes : Fault → List Note
  | .failure f => f.notes
  | .notExpression _ => []

/-- Whether a computation that gives a value, which has a property, leaves no call in progress, and
one that fails leaves those in progress that its notes tell. -/
def Noted {α : Type} (post : α → Prop) (m : Eval α) : Prop :=
  ∀ (env : Environment) (calls : List Builtin),
    (∀ a, (m env).result = .ok a → post a ∧ inProgress calls (m env).events = calls) ∧
      ∀ f, (m env).result = .error (.failure f) →
        ∃ forms, inProgress calls (m env).events = forms ++ calls ∧ f.notes = forms.map .inForm

namespace Noted

variable {α β : Type} {post : α → Prop}

/-- A computation in which no form is called, and which fails without notes. -/
theorem of_silent {m : Eval α}
    (h : ∀ env calls, inProgress calls (m env).events = calls ∧
      (∀ a, (m env).result = .ok a → post a) ∧
      ∀ f, (m env).result = .error (.failure f) → f.notes = []) : Noted post m := by
  intro env calls
  obtain ⟨hevents, hok, herror⟩ := h env calls
  exact ⟨fun a ha => ⟨hok a ha, hevents⟩, fun f hf => ⟨[], hevents, herror f hf⟩⟩

theorem pure {a : α} (ha : post a) : Noted post (Pure.pure a) := by
  refine of_silent (fun env calls => ⟨rfl, ?_, fun f hf => (by cases hf)⟩)
  rintro b ⟨⟩
  exact ha

theorem bind {next : β → Prop} {m : Eval α} {k : α → Eval β} (hm : Noted post m)
    (hk : ∀ a, post a → Noted next (k a)) : Noted next (m >>= k) := by
  intro env calls
  obtain ⟨hok, herror⟩ := hm env calls
  rcases bind_cases m k env with ⟨f, hf, h⟩ | ⟨a, ha, h⟩
  · rw [h]
    refine ⟨fun b hb => (by cases hb), ?_⟩
    rintro g ⟨⟩
    exact herror g hf
  · obtain ⟨hpost, hevents⟩ := hok a ha
    rw [h, inProgress_append, hevents]
    exact hk a hpost (m env).env calls

theorem of_error {m : Eval α} {cause : Environment → Cause}
    (h : ∀ env, m env = ⟨.error (.ofCause (cause env)), env, []⟩) : Noted post m := by
  refine of_silent (fun env calls => ?_)
  rw [h]
  refine ⟨rfl, fun a ha => (by cases ha), ?_⟩
  rintro f ⟨⟩
  rfl

theorem foreign (k : Foreign.Kind) : Noted post (raise (.notExpression k) : Eval α) :=
  of_silent (fun _ _ => ⟨rfl, fun a ha => (by cases ha), fun f hf => (by cases hf)⟩)

theorem refuse (c : Text → Cause) (e : Expr) : Noted post (Eval.refuse c e) := by
  unfold Eval.refuse
  cases e.shown with
  | ok t => exact of_error (fun _ => rfl)
  | error v => exact foreign v.kind

theorem lookup (n : Text) : Noted (fun _ => True) (Eval.lookup n) := by
  refine of_silent (fun env calls => ?_)
  rw [lookup_apply]
  refine ⟨rfl, fun _ _ => trivial, fun f hf => ?_⟩
  cases hv : env.scopes.get? n with
  | none =>
      rw [hv] at hf
      cases hf
      rfl
  | some v =>
      rw [hv] at hf
      cases hf

theorem assign (n : Text) (v : Expr) : Noted (fun _ => True) (Eval.assign n v) := by
  refine of_silent (fun env calls => ?_)
  rcases assign_cases n v env with ⟨-, h⟩ | ⟨level, -, h⟩
  · rw [h]
    refine ⟨rfl, fun _ _ => trivial, ?_⟩
    rintro f ⟨⟩
    rfl
  · rw [h]
    exact ⟨rfl, fun _ _ => trivial, fun f hf => (by cases hf)⟩

theorem declare (n : Text) (v : Expr) : Noted (fun _ => True) (Eval.declare n v) :=
  of_silent (fun _ _ => ⟨rfl, fun _ _ => trivial, fun f hf => (by cases hf)⟩)

/-- A body does not hide the calls in it, and taking the frames off calls nothing. -/
theorem within {m : Eval Expr} (hm : Noted (fun _ => True) m) (f : Frame) :
    Noted (fun _ => True) (Eval.within f m) := by
  intro env calls
  have hevents : inProgress calls (Eval.within f m env).events =
      inProgress calls (m { env with scopes := env.scopes.push f }).events := by
    rw [within_apply]
    show inProgress calls ((m { env with scopes := env.scopes.push f }).events ++
      ([.bodyLeft] ++ popEvents _ _)) = _
    rw [inProgress_append, inProgress_append, inProgress_popEvents]
    rfl
  rw [hevents]
  exact hm { env with scopes := env.scopes.push f } calls

theorem counted {m : Eval Expr} (hm : Noted (fun _ => True) m) :
    Noted (fun _ => True) (Eval.counted m) := by
  intro env calls
  rcases counted_cases m env with ⟨-, h⟩ | ⟨-, h⟩
  · rw [h]
    refine ⟨fun a ha => (by cases ha), ?_⟩
    rintro f ⟨⟩
    exact ⟨[], rfl, rfl⟩
  · rw [h]
    exact hm { env with depth := env.depth + 1 } calls

/-- The call of a form is in progress while it runs; it adds its note where it stays so. -/
theorem dispatched (b : Builtin) (k : Nat) {m : Eval Expr} (hm : Noted (fun _ => True) m) :
    Noted (fun _ => True) (Eval.dispatched b k m) := by
  intro env calls
  obtain ⟨hok, herror⟩ := hm env (b :: calls)
  rcases dispatched_cases b k m env with ⟨f, hf, h⟩ | ⟨a, ha, h⟩
  · rw [h]
    refine ⟨fun a ha => (by cases ha), fun g hg => ?_⟩
    cases f with
    | failure f =>
        cases hg
        obtain ⟨forms, hevents, hnotes⟩ := herror f hf
        refine ⟨forms ++ [b], ?_, ?_⟩
        · rw [List.append_assoc]
          exact hevents
        · rw [List.map_append, ← hnotes]
          rfl
    | notExpression k => cases hg
  · obtain ⟨-, hevents⟩ := hok a ha
    rw [h]
    refine ⟨fun _ _ => ⟨trivial, ?_⟩, fun g hg => (by cases hg)⟩
    show inProgress (b :: calls) ((m env).events ++ [.returned b]) = calls
    rw [inProgress_append, hevents]
    rfl

end Noted

/-! ## Evaluations -/

/-- The notes of every computation of an evaluation tell the calls in progress. -/
def notedDiscipline : Discipline where
  code _ := True
  form _ := True
  value _ := True
  holds := Noted
  code_item _ _ := trivial
  form_of_code _ _ := trivial
  value_bool _ := trivial
  value_num _ := trivial
  value_str _ := trivial
  value_nil := trivial
  pure := Noted.pure
  bind := Noted.bind
  fail _ := Noted.of_error (fun _ => rfl)
  refuse c e _ := Noted.refuse c e
  foreign _ := Noted.foreign _
  lookup _ := Noted.lookup _
  assign _ _ _ := Noted.assign _ _
  declare _ _ _ := Noted.declare _ _
  within _ hm := hm.within _
  counted := Noted.counted
  dispatched hm := hm.dispatched _ _
  uncallable _ := Noted.of_error (uncallable_apply _)

/-- **The notes of a failure** tell the forms that were called and have not returned, the latest
first. -/
theorem inProgress_evaluate {e : Expr} {env : Environment} {f : Failure}
    (h : (evaluate e env).result = .error (.failure f)) :
    f.notes = (inProgress [] (evaluate e env).events).map .inForm := by
  obtain ⟨-, herror⟩ := notedDiscipline.evaluate (e := e) trivial env []
  obtain ⟨forms, hevents, hnotes⟩ := herror f h
  rw [hevents, List.append_nil, hnotes]

/-- What fails without any event has no notes. -/
theorem Noted.notes_eq_nil {α : Type} {post : α → Prop} {m : Eval α} (hm : Noted post m)
    {env : Environment} (hevents : ∀ x, x ∉ (m env).events) {fault : Fault}
    (h : (m env).result = .error fault) : fault.notes = [] := by
  cases fault with
  | notExpression k => rfl
  | failure f =>
      obtain ⟨-, herror⟩ := hm env []
      obtain ⟨forms, hforms, hnotes⟩ := herror f h
      rw [List.eq_nil_iff_forall_not_mem.mpr hevents, List.append_nil] at hforms
      show f.notes = []
      rw [hnotes, ← hforms]
      rfl

theorem notes_of_refuse {α : Type} {c : Text → Cause} {e : Expr} {env : Environment} {fault : Fault}
    (h : (refuse c e env : Run Fault α).result = .error fault) : fault.notes = [] := by
  have hnoted : Noted (fun _ => True) (refuse c e : Eval α) := Noted.refuse c e
  exact hnoted.notes_eq_nil (fun _ => not_mem_events_refuse) h

end MiniLisp
