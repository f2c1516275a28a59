import MiniLisp.Proofs.Evaluation.Calls
import MiniLisp.Proofs.Evaluation.InProgress

set_option autoImplicit false

/-! # The notes of a failure

A failure is noted by every form through whose call it leaves. So its notes tell which calls were in
progress where it was raised, the innermost first. Two things have to agree with the notes: the
events, which is shown for every computation in `InProgress.lean`, and the program.

From the moment at which an evaluation begins, moments lead to the one that raises the failure, each
of them begun by the one before, and the lists that are called on this way stand inside one another
(`Leads`). There is such a way because a moment that fails raises the fault itself, with no notes,
or it begins another moment that fails; then the fault is the same, with one more note if the moment
is the call of a form (`Moment.fails`).
-/

namespace MiniLisp

open Eval Event

/-! ## Where a fault is raised -/

/-- The fault of a computation, if it fails. -/
def Run.fault? {ε α : Type} (r : Run ε α) : Option ε :=
  match r.result with
  | .ok _ => none
  | .error f => some f

theorem Run.fault?_eq_some {ε α : Type} {r : Run ε α} {f : ε} :
    r.fault? = some f ↔ r.result = .error f := by
  unfold Run.fault?
  cases r.result <;> simp

theorem Run.fault?_eq_none {ε α : Type} {r : Run ε α} {a : α} (h : r.result = .ok a) :
    r.fault? = none := by
  unfold Run.fault?
  rw [h]

/-- A call of a form in a program. -/
structure Call where
  form : Builtin
  arguments : List Expr

namespace Call

/-- The list that is called. -/
def list (c : Call) : Expr := .list (.sym c.form.name :: c.arguments)

/-- The note about a call. -/
def note (c : Call) : Note := .inForm c.form

end Call

/-- A fault on its way out of calls, of which the outermost is the first. -/
def Fault.carried (calls : List Call) (fault : Fault) : Fault :=
  calls.foldr (fun c f => f.addNote c.note) fault

theorem Fault.carried_append (calls more : List Call) (fault : Fault) :
    fault.carried (calls ++ more) = (fault.carried more).carried calls :=
  List.foldr_append

theorem Fault.carried_ofCause (calls : List Call) (c : Cause) :
    (Fault.ofCause c).carried calls = .failure ⟨c, (calls.map Call.note).reverse⟩ := by
  induction calls with
  | nil => rfl
  | cons call calls ih =>
      show ((Fault.ofCause c).carried calls).addNote call.note = _
      rw [ih, List.map_cons, List.reverse_cons]
      rfl

theorem Fault.carried_notExpression (calls : List Call) (k : Foreign.Kind) :
    (Fault.notExpression k).carried calls = .notExpression k := by
  induction calls with
  | nil => rfl
  | cons call calls ih =>
      show ((Fault.notExpression k).carried calls).addNote call.note = _
      rw [ih]
      rfl

namespace Moment

/-- The fault of the task of a moment, if it fails. -/
def fault? : Moment → Option Fault
  | ⟨.expression e, env⟩ => (evaluate e env).fault?
  | ⟨.form b es, env⟩ => (applyForm b es env).fault?
  | ⟨.uncallable n, env⟩ => (uncallable n env : Run Fault Expr).fault?
  | ⟨.bindings f pairs, env⟩ => (bindAll f pairs env).fault?

/-- A fault is raised at a moment: its task fails, and nothing that it begins does. -/
def Raises (p : Moment) (fault : Fault) : Prop :=
  p.fault? = some fault ∧ ∀ q, Starts p q → q.fault? = none

/-- The call that a moment begins with, if it is that of a list with the name of a form in front. -/
def call? : Moment → Option Call
  | ⟨.expression (.list (.sym n :: es)), _⟩ => (Builtin.ofName? n).map (⟨·, es⟩)
  | _ => none

/-- How a moment fails: with a fault of its own, which has no notes yet, or with that of another
moment, which it begins. -/
inductive Fails (p : Moment) : Fault → Prop
  | raised {fault : Fault} : p.Raises fault → fault.notes = [] → Fails p fault
  | passed {q : Moment} {fault : Fault} : Starts p q → q.fault? = some fault →
      Fails p (fault.carried p.call?.toList)

theorem Fails.of_not_starts {p : Moment} {fault : Fault} (h : p.fault? = some fault)
    (hstarts : ∀ q, ¬ Starts p q) (hnotes : fault.notes = []) : p.Fails fault :=
  .raised ⟨h, fun q hq => absurd hq (hstarts q)⟩ hnotes

theorem fails_list {n : Text} {es : List Expr} {env : Environment} {fault : Fault}
    (h : (evaluate (.list (.sym n :: es)) env).result = .error fault) :
    Fails ⟨.expression (.list (.sym n :: es)), env⟩ fault := by
  rcases le_or_gt env.maxDepth env.depth with hle | hlt
  · -- the call is refused, and nothing is begun
    have hfault : (⟨.expression (.list (.sym n :: es)), env⟩ : Moment).fault? = some fault :=
      Run.fault?_eq_some.mpr h
    rw [evaluate_of_limit hle] at h
    cases h
    refine .of_not_starts hfault (fun q hq => ?_) rfl
    cases hq <;> omega
  cases hb : Builtin.ofName? n with
  | none =>
      rw [evaluate_uncallable hb es hlt] at h
      have hstep : Starts ⟨.expression (.list (.sym n :: es)), env⟩ _ := .refusal hb hlt
      have hpass := Fails.passed hstep (Run.fault?_eq_some.mpr h)
      rwa [call?, hb] at hpass
  | some b =>
      obtain ⟨hresult, -⟩ := evaluate_call hb es hlt
      rw [hresult] at h
      cases hcall : (applyForm b es { env with depth := env.depth + 1 }).result with
      | ok v =>
          rw [hcall] at h
          cases h
      | error inner =>
          rw [hcall] at h
          cases h
          have hpass := Fails.passed (.call hb hlt) (Run.fault?_eq_some.mpr hcall)
          rwa [call?, hb] at hpass

theorem fails_expression {e : Expr} {env : Environment} {fault : Fault}
    (h : (evaluate e env).result = .error fault) : Fails ⟨.expression e, env⟩ fault := by
  have hfault : (⟨.expression e, env⟩ : Moment).fault? = some fault := Run.fault?_eq_some.mpr h
  cases e with
  | bool b => cases h
  | num x => cases h
  | str s => cases h
  | sym n =>
      refine .of_not_starts hfault (fun q hq => by cases hq) ?_
      exact (Noted.lookup n).notes_eq_nil (by simp [lookup_apply]) h
  | foreign v =>
      cases h
      exact .of_not_starts hfault (fun q hq => by cases hq) rfl
  | list es =>
      match es with
      | [] => cases h
      | .sym n :: es => exact fails_list h
      | .bool _ :: _ | .num _ :: _ | .str _ :: _ | .list _ :: _ | .foreign _ :: _ =>
          exact .of_not_starts hfault (fun q hq => by cases hq) (notes_of_refuse h)

theorem fails_uncallable {n : Text} {env : Environment} {fault : Fault}
    (h : (uncallable n env : Run Fault Expr).result = .error fault) :
    Fails ⟨.uncallable n, env⟩ fault := by
  have hfault : (⟨.uncallable n, env⟩ : Moment).fault? = some fault := Run.fault?_eq_some.mpr h
  rw [uncallable_apply] at h
  cases h
  exact .of_not_starts hfault (fun q hq => by cases hq) rfl

theorem fails_bindings {f : Frame} {pairs : List Expr} {env : Environment} {fault : Fault}
    (h : (bindAll f pairs env).result = .error fault) : Fails ⟨.bindings f pairs, env⟩ fault := by
  have hfault : (⟨.bindings f pairs, env⟩ : Moment).fault? = some fault := Run.fault?_eq_some.mpr h
  cases pairs with
  | nil => cases h
  | cons pair pairs =>
      by_cases hp : ∃ n e, pair = .list [.sym n, e]
      · obtain ⟨n, e, rfl⟩ := hp
        rcases error_of_bind h with h | ⟨v, hv, h⟩
        · exact .passed .value (Run.fault?_eq_some.mpr h)
        · exact .passed (.otherBindings hv) (Run.fault?_eq_some.mpr h)
      · rw [bindAll_of_not_pair f pairs hp] at h
        refine .of_not_starts hfault (fun q hq => ?_) (notes_of_refuse h)
        cases hq <;> exact hp ⟨_, _, rfl⟩

/-- A definition fails for its arguments or with its value. Pushing the frame does not fail. -/
theorem fails_define {es : List Expr} {env : Environment} {fault : Fault}
    (h : (applyForm .define es env).result = .error fault) :
    Fails ⟨.form .define es, env⟩ fault := by
  have hfault : (⟨.form .define es, env⟩ : Moment).fault? = some fault := Run.fault?_eq_some.mpr h
  match es with
  | [target, e] =>
      cases target with
      | sym n =>
          rcases error_of_bind h with h | ⟨v, -, h⟩
          · exact .passed .defined (Run.fault?_eq_some.mpr h)
          · cases h
      | _ => exact .of_not_starts hfault (fun q hq => by cases hq) (notes_of_refuse h)
  | [] | [_] | _ :: _ :: _ :: _ =>
      cases h
      exact .of_not_starts hfault (fun q hq => by cases hq) rfl

/-- An assignment fails for its arguments, with its value, or because its name is not bound. -/
theorem fails_assign {es : List Expr} {env : Environment} {fault : Fault}
    (h : (applyForm .assign es env).result = .error fault) :
    Fails ⟨.form .assign es, env⟩ fault := by
  have hfault : (⟨.form .assign es, env⟩ : Moment).fault? = some fault := Run.fault?_eq_some.mpr h
  match es with
  | [target, e] =>
      cases target with
      | sym n =>
          rcases error_of_bind h with h | ⟨v, hv, h⟩
          · exact .passed .assigned (Run.fault?_eq_some.mpr h)
          · rcases error_of_bind h with h | ⟨_, -, h⟩
            · -- the value is there, so what fails is the assignment itself
              refine .raised ⟨hfault, fun q hq => ?_⟩ ?_
              · cases hq
                exact Run.fault?_eq_none hv
              · rcases assign_cases n v (evaluate e env).env with ⟨-, hrun⟩ | ⟨level, -, hrun⟩
                · rw [hrun] at h
                  cases h
                  rfl
                · rw [hrun] at h
                  cases h
            · cases h
      | _ => exact .of_not_starts hfault (fun q hq => by cases hq) (notes_of_refuse h)
  | [] | [_] | _ :: _ :: _ :: _ =>
      cases h
      exact .of_not_starts hfault (fun q hq => by cases hq) rfl

theorem fails_letIn {es : List Expr} {env : Environment} {fault : Fault}
    (h : (applyForm .letIn es env).result = .error fault) : Fails ⟨.form .letIn es, env⟩ fault := by
  have hfault : (⟨.form .letIn es, env⟩ : Moment).fault? = some fault := Run.fault?_eq_some.mpr h
  match es with
  | [] =>
      cases h
      exact .of_not_starts hfault (fun q hq => by cases hq) rfl
  | .list pairs :: es =>
      rcases error_of_bind h with h | ⟨f, hf, h⟩
      · exact .passed .bindings (Run.fault?_eq_some.mpr h)
      · exact .passed (.body hf) (Run.fault?_eq_some.mpr h)
  | .bool _ :: _ | .num _ :: _ | .str _ :: _ | .sym _ :: _ | .foreign _ :: _ =>
      exact .of_not_starts hfault (fun q hq => by cases hq) (notes_of_refuse h)

theorem fails_sequence {es : List Expr} {env : Environment} {fault : Fault}
    (h : (applyForm .sequence es env).result = .error fault) :
    Fails ⟨.form .sequence es, env⟩ fault := by
  match es with
  | [] => cases h
  | [e] => exact .passed .first (Run.fault?_eq_some.mpr h)
  | e :: f :: es =>
      rcases error_of_bind h with h | ⟨v, hv, h⟩
      · exact .passed .first (Run.fault?_eq_some.mpr h)
      · exact .passed (.others hv) (Run.fault?_eq_some.mpr h)

/-- A sum begins nothing. -/
theorem fails_add {es : List Expr} {env : Environment} {fault : Fault}
    (h : (applyForm .add es env).result = .error fault) : Fails ⟨.form .add es, env⟩ fault := by
  have hfault : (⟨.form .add es, env⟩ : Moment).fault? = some fault := Run.fault?_eq_some.mpr h
  refine .of_not_starts hfault (fun q hq => by cases hq) ?_
  rw [applyForm] at h
  rcases error_of_bind h with h | ⟨x, -, h⟩
  · have hsum : Noted (fun _ => True) (sum (Binary64.zero false) es) :=
      notedDiscipline.sum (fun _ _ => trivial) _
    exact hsum.notes_eq_nil (fun _ => not_mem_events_sum) h
  · cases h

/-- **A moment that fails** raises the fault, or another moment that it begins has failed. -/
theorem fails {p : Moment} {fault : Fault} (h : p.fault? = some fault) : p.Fails fault := by
  obtain ⟨task, env⟩ := p
  cases task with
  | expression e => exact fails_expression (Run.fault?_eq_some.mp h)
  | uncallable n => exact fails_uncallable (Run.fault?_eq_some.mp h)
  | bindings f pairs => exact fails_bindings (Run.fault?_eq_some.mp h)
  | form b es =>
      cases b with
      | add => exact fails_add (Run.fault?_eq_some.mp h)
      | define => exact fails_define (Run.fault?_eq_some.mp h)
      | sequence => exact fails_sequence (Run.fault?_eq_some.mp h)
      | letIn => exact fails_letIn (Run.fault?_eq_some.mp h)
      | assign => exact fails_assign (Run.fault?_eq_some.mp h)

end Moment

/-! ## The way to where a fault is raised -/

namespace Task

/-- The expressions that a task is about. -/
def parts : Task → List Expr
  | .expression e => [e]
  | .form _ es => es
  | .uncallable _ => []
  | .bindings _ pairs => pairs

/-- The size of a task, which is greater than that of the tasks it begins. -/
noncomputable def size : Task → Nat
  | .expression e => sizeOf e
  | .form _ es => sizeOf es + 1
  | .uncallable _ => 0
  | .bindings _ pairs => sizeOf pairs

/-- An expression is a part of a task or stands in one. -/
def Holds (t : Task) (x : Expr) : Prop := ∃ e ∈ t.parts, x.Within e

end Task

namespace Starts

variable {p q : Moment}

theorem size_lt (h : Starts p q) : q.task.size < p.task.size := by
  cases h <;> simp [Task.size] <;> omega

/-- A task that is begun is about expressions of the one that begins it. -/
theorem parts (h : Starts p q) {e : Expr} (he : e ∈ q.task.parts) : p.task.Holds e := by
  cases h with
  | call => exact ⟨_, List.mem_singleton_self _, .single (Expr.itemOf_list (.tail _ he))⟩
  | refusal => cases he
  | defined | assigned => exact ⟨e, .tail _ he, .refl⟩
  | bindings => exact ⟨_, List.mem_cons_self, .single (Expr.itemOf_list he)⟩
  | body => exact ⟨e, .tail _ he, .refl⟩
  | first =>
      cases List.mem_singleton.mp he
      exact ⟨e, List.mem_cons_self, .refl⟩
  | others => exact ⟨e, .tail _ he, .refl⟩
  | value => exact ⟨_, List.mem_cons_self, .single (Expr.itemOf_list (.tail _ he))⟩
  | otherBindings => exact ⟨e, .tail _ he, .refl⟩

theorem holds (h : Starts p q) {x : Expr} (hx : q.task.Holds x) : p.task.Holds x := by
  obtain ⟨e, he, hxe⟩ := hx
  obtain ⟨f, hf, hef⟩ := h.parts he
  exact ⟨f, hf, hxe.trans hef⟩

/-- What is begun by a call is inside the list that is called, and one deeper. -/
theorem of_call {c : Call} (h : Starts p q) (hc : p.call? = some c) :
    p.task = .expression c.list ∧ q.env.depth = p.env.depth + 1 ∧
      ∀ x, q.task.Holds x → x.Inside c.list := by
  cases h with
  | @call n b es env hb hlt =>
      rw [Moment.call?, hb] at hc
      cases hc
      have hlist : (⟨b, es⟩ : Call).list = .list (.sym n :: es) := by
        rw [Call.list, Builtin.name_of_ofName? hb]
      rw [hlist]
      refine ⟨rfl, rfl, ?_⟩
      rintro x ⟨e, he, hx⟩
      exact .tail' hx (Expr.itemOf_list (.tail _ he))
  | refusal hb =>
      rw [Moment.call?, hb] at hc
      cases hc
  | _ => cases hc

end Starts

/-- Moments lead from one to another, each begun by the one before. The calls are those that the
moments before the last begin with, in order. -/
inductive Leads : Moment → List Call → Moment → Prop
  | here {p : Moment} : Leads p [] p
  | step {p q r : Moment} {calls : List Call} : Starts p q → Leads q calls r →
      Leads p (p.call?.toList ++ calls) r

namespace Leads

variable {p q : Moment} {calls : List Call}

theorem reaches (h : Leads p calls q) : Reaches p q := by
  induction h with
  | here => exact .refl
  | step hstep _ ih => exact .head hstep ih

/-- The lists that are called stand in the task that leads to them. -/
theorem holds (h : Leads p calls q) : ∀ c ∈ calls, p.task.Holds c.list := by
  induction h with
  | here => exact fun c hc => by cases hc
  | @step p q r calls hstep _ ih =>
      intro c hc
      rcases List.mem_append.mp hc with hc | hc
      · obtain ⟨htask, -⟩ := hstep.of_call (Option.mem_toList.mp hc)
        rw [htask]
        exact ⟨c.list, List.mem_singleton_self _, .refl⟩
      · exact hstep.holds (ih c hc)

/-- **The lists that are called** on the way stand inside one another. -/
theorem nested (h : Leads p calls q) :
    (calls.map Call.list).Pairwise (fun outer inner => inner.Inside outer) := by
  induction h with
  | here => exact .nil
  | @step p q r calls hstep hrest ih =>
      cases hcall : p.call? with
      | none => exact ih
      | some c =>
          obtain ⟨-, -, hinside⟩ := hstep.of_call hcall
          refine List.Pairwise.cons ?_ ih
          intro x hx
          obtain ⟨d, hd, rfl⟩ := List.mem_map.mp hx
          exact hinside _ (hrest.holds d hd)

/-- The way from an expression begins with the call of this one, if there is any call on it. -/
theorem outermost {e : Expr} {env : Environment} (h : Leads ⟨.expression e, env⟩ calls q) :
    ∀ c ∈ calls.head?, c.list = e := by
  intro c hc
  cases h with
  | here => cases hc
  | step hstep hrest =>
      cases hcall : Moment.call? ⟨.expression e, env⟩ with
      | some d =>
          rw [hcall] at hc
          cases hc
          obtain ⟨htask, -⟩ := hstep.of_call hcall
          cases htask
          rfl
      | none =>
          -- the head names no form, and the refusal of it begins nothing
          rw [hcall] at hc
          cases hstep with
          | call hb =>
              rw [Moment.call?, hb] at hcall
              cases hcall
          | refusal =>
              cases hrest with
              | here => cases hc
              | step hstep => cases hstep

/-- Every call on the way is counted. -/
theorem depth (h : Leads p calls q) : p.env.depth + calls.length ≤ q.env.depth := by
  induction h with
  | here => simp
  | @step p q r calls hstep hrest ih =>
      cases hcall : p.call? with
      | none =>
          have hle : p.env.depth ≤ q.env.depth := Reaches.le_depth (.single hstep)
          exact (Int.add_le_add_right hle _).trans ih
      | some c =>
          obtain ⟨-, hdepth, -⟩ := hstep.of_call hcall
          calc p.env.depth + ((c :: calls).length : ℤ)
              = q.env.depth + calls.length := by rw [hdepth, List.length_cons]; push_cast; ring
            _ ≤ r.env.depth := ih

/-- There are no more calls on the way than the limit leaves. -/
theorem length_le (h : Leads p calls q) (hle : p.env.depth ≤ p.env.maxDepth) :
    (calls.length : ℤ) ≤ p.env.maxDepth - p.env.depth := by
  have hcount := h.depth
  have hlimit := h.reaches.depth_le hle
  rw [h.reaches.maxDepth] at hlimit
  omega

end Leads

/-- **Every fault is raised somewhere**: moments lead to one that raises it, and on its way back it
is noted by the calls that led there. -/
theorem exists_leads {p : Moment} {fault : Fault} (h : p.fault? = some fault) :
    ∃ calls q raised, Leads p calls q ∧ q.Raises raised ∧ raised.notes = [] ∧
      fault = raised.carried calls := by
  induction hsize : p.task.size using Nat.strong_induction_on generalizing p fault with
  | _ size ih =>
    cases Moment.fails h with
    | raised hraises hnotes => exact ⟨[], p, fault, .here, hraises, hnotes, rfl⟩
    | @passed q inner hstep hq =>
        obtain ⟨calls, r, raised, hleads, hraises, hnotes, rfl⟩ :=
          ih _ (hsize ▸ hstep.size_lt) hq rfl
        exact ⟨p.call?.toList ++ calls, r, raised, .step hstep hleads, hraises, hnotes,
          (Fault.carried_append _ _ _).symm⟩

/-- **The notes of a failure are the calls in progress where it is raised**, the innermost first.
Moments lead from the evaluation to the one that raises its fault, by calls of forms that stand
inside one another, the outermost of them the expression itself, and that are no more than the limit
leaves. A failure of the language is raised without notes and arrives with one for each of these
calls; they are the calls that were made in the course of the evaluation and have not returned. Any
other fault arrives as it is raised, without notes. -/
theorem notes_evaluate (e : Expr) (env : Environment) (fault : Fault)
    (h : (evaluate e env).result = .error fault) :
    ∃ calls last, Leads ⟨.expression e, env⟩ calls last ∧
      (∀ c ∈ calls.head?, c.list = e) ∧
      (calls.map Call.list).Pairwise (fun outer inner => inner.Inside outer) ∧
      (env.depth ≤ env.maxDepth → (calls.length : ℤ) ≤ env.maxDepth - env.depth) ∧
      ((∃ cause, last.Raises (.ofCause cause) ∧
          fault = .failure ⟨cause, (calls.map Call.note).reverse⟩ ∧
          fault.notes.map Note.text =
            (calls.map fun c => ("in (" ++ c.form.name ++ " ...)" : Text)).reverse ∧
          inProgress [] (evaluate e env).events = (calls.map Call.form).reverse) ∨
        ∃ kind, last.Raises (.notExpression kind) ∧ fault = .notExpression kind ∧
          fault.notes = []) := by
  obtain ⟨calls, last, raised, hleads, hraises, hnotes, hfault⟩ :=
    exists_leads (p := ⟨.expression e, env⟩) (Run.fault?_eq_some.mpr h)
  refine ⟨calls, last, hleads, hleads.outermost, hleads.nested, hleads.length_le, ?_⟩
  cases raised with
  | notExpression kind =>
      rw [Fault.carried_notExpression] at hfault
      exact Or.inr ⟨kind, hraises, hfault, by rw [hfault]; rfl⟩
  | failure f =>
      obtain ⟨cause, notes⟩ := f
      cases hnotes
      have hcarried : fault = .failure ⟨cause, (calls.map Call.note).reverse⟩ :=
        hfault.trans (Fault.carried_ofCause calls cause)
      subst hcarried
      refine Or.inl ⟨cause, hraises, rfl, ?_, ?_⟩
      · show (calls.map Call.note).reverse.map Note.text = _
        rw [List.map_reverse, List.map_map]
        rfl
      · -- the events tell the same forms, since both stand in the notes
        have hforms := inProgress_evaluate h
        have hinjective : Function.Injective Note.inForm := fun _ _ heq => Note.inForm.inj heq
        apply hinjective.list_map
        rw [← hforms, List.map_reverse, List.map_map]
        rfl

/-- A sum has returned when a value that is to be assigned fails, in the bindings of a `let`, at a
head that names no form. -/
theorem notes_evaluate_assigned :
    let env : Environment := .ofRoot (.ofBindings [("y", .nil)]) 4
    let f : Expr := .list [.sym "f"]
    let e : Expr := .list [.sym "eval", .list [.sym "+"],
      .list [.sym "let", .list [.list [.sym "x", .list [.sym "set", .sym "y", f]]], .sym "x"]]
    let fault : Fault :=
      .failure ⟨.unknownName "f", [.inForm .assign, .inForm .letIn, .inForm .sequence]⟩
    (evaluate e env).result = .error fault ∧
      ∃ calls last, Leads ⟨.expression e, env⟩ calls last ∧
        calls.map Call.form = [.sequence, .letIn, .assign] := by
  intro env f e fault
  have h : (evaluate e env).result = .error fault := rfl
  obtain ⟨calls, last, hleads, -, -, -, hfault⟩ := notes_evaluate e env fault h
  refine ⟨h, calls, last, hleads, ?_⟩
  rcases hfault with ⟨cause, -, -, -, hevents⟩ | ⟨kind, -, hforeign, -⟩
  · have hforms : [.assign, .letIn, .sequence] = (calls.map Call.form).reverse := hevents
    exact List.reverse_eq_iff.mp hforms.symm
  · exact Fault.noConfusion hforeign

end MiniLisp
