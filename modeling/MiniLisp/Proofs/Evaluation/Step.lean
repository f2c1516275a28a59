import MiniLisp.Evaluation

set_option autoImplicit false

/-! # The steps of an evaluation

What each step of an evaluation comes to: its result, the environment it leaves and its events.
The two forms that push a frame end in a step of their own, `Eval.declare` and `Eval.within`.
-/

namespace MiniLisp

namespace Eval

variable {α : Type}

/-! ## Forms that push a frame -/

/-- The end of a definition: pushes a frame that binds the name. -/
def declare (n : Text) (v : Expr) : Eval Expr := do
  push (Frame.empty.put n v)
  note (.defined n)
  return v

/-- The end of a `let`: runs the body in the frame of the bindings. -/
def within (f : Frame) (m : Eval Expr) : Eval Expr := do
  let env ← environment
  push f
  body env.scopes.size m

theorem letIn_eq_bind_within (bindings : Eval Frame) (m : Eval Expr) :
    letIn bindings m = bindings >>= fun f => within f m := rfl

theorem declare_apply (n : Text) (v : Expr) (env : Environment) :
    declare n v env =
      ⟨.ok v, { env with scopes := env.scopes.push (Frame.empty.put n v) },
        [.pushed (Frame.empty.put n v).names (env.scopes.size + 1), .defined n]⟩ := rfl

theorem within_apply (f : Frame) (m : Eval Expr) (env : Environment) :
    within f m env =
      let r := m { env with scopes := env.scopes.push f }
      ⟨r.result, { r.env with scopes := r.env.scopes.shrink env.scopes.size },
        .pushed f.names (env.scopes.size + 1) ::
          (.bodyEntered ::
            (r.events ++ .bodyLeft :: popEvents env.scopes.size r.env.scopes.size))⟩ := rfl

/-! ## Steps -/

/-- A computation that goes on only after a value: what comes of it, in the two cases. -/
theorem bind_cases {β : Type} (m : Eval α) (k : α → Eval β) (env : Environment) :
    (∃ f, (m env).result = .error f ∧
        (m >>= k) env = ⟨.error f, (m env).env, (m env).events⟩) ∨
      ∃ a, (m env).result = .ok a ∧
        (m >>= k) env = ⟨(k a (m env).env).result, (k a (m env).env).env,
          (m env).events ++ (k a (m env).env).events⟩ := by
  cases h : (m env).result with
  | error f => exact Or.inl ⟨f, rfl, bind_of_error k h⟩
  | ok a => exact Or.inr ⟨a, rfl, bind_of_ok k h⟩

/-- Two computations fail where the first does, or where the second does after a value. -/
theorem error_of_bind {β : Type} {m : Eval α} {k : α → Eval β} {env : Environment} {fault : Fault}
    (h : ((m >>= k) env).result = .error fault) :
    (m env).result = .error fault ∨
      ∃ a, (m env).result = .ok a ∧ (k a (m env).env).result = .error fault := by
  rcases bind_cases m k env with ⟨f, hf, hrun⟩ | ⟨a, ha, hrun⟩
  · rw [hrun] at h
    cases h
    exact Or.inl hf
  · rw [hrun] at h
    exact Or.inr ⟨a, ha, h⟩

theorem bind_bind {β γ : Type} (m : Eval α) (k : α → Eval β) (l : β → Eval γ)
    (env : Environment) : ((m >>= k) >>= l) env = (m >>= fun a => k a >>= l) env := by
  rcases bind_cases m k env with ⟨f, hf, h⟩ | ⟨a, ha, h⟩
  · rw [bind_of_error _ (by rw [h]), h, bind_of_error _ hf]
  · rw [bind_of_ok _ ha]
    rcases bind_cases (k a) l (m env).env with ⟨f, hf, hk⟩ | ⟨b, hb, hk⟩
    · rw [bind_of_error _ (by rw [h, hf]), h, hk]
    · rw [bind_of_ok _ (by rw [h, hb]), h, hk, List.append_assoc]

/-- A computation that is followed by one that changes nothing. -/
theorem bind_of_silent {β : Type} {m : Eval α} {k : α → Eval β}
    (hk : ∀ a env, ∃ x, k a env = ⟨x, env, []⟩) (env : Environment) :
    ((m >>= k) env).events = (m env).events ∧ ((m >>= k) env).env = (m env).env ∧
      ∀ b, ((m >>= k) env).result = .ok b → ∃ a, (m env).result = .ok a := by
  rcases bind_cases m k env with ⟨f, -, h⟩ | ⟨a, ha, h⟩
  · rw [h]
    exact ⟨rfl, rfl, fun b hb => by cases hb⟩
  · obtain ⟨x, hx⟩ := hk a (m env).env
    rw [h, hx]
    exact ⟨List.append_nil _, rfl, fun _ _ => ⟨a, ha⟩⟩

/-- Refusing an expression changes nothing. -/
theorem refuse_apply (c : Text → Cause) (e : Expr) :
    ∃ f, ∀ env, (refuse c e : Eval α) env = ⟨.error f, env, []⟩ := by
  unfold refuse
  cases e.shown with
  | ok t => exact ⟨_, fun _ => rfl⟩
  | error v => exact ⟨_, fun _ => rfl⟩

/-- A head that cannot be called changes nothing. -/
theorem uncallable_apply (n : Text) (env : Environment) :
    (uncallable n : Eval α) env =
      ⟨.error (.ofCause (match env.scopes.get? n with
        | some (.list _) => .notCallable n
        | _ => .unknownName n)), env, []⟩ := by
  unfold uncallable
  cases env.scopes.get? n with
  | none => rfl
  | some v => cases v <;> rfl

/-- Looking a name up changes nothing. -/
theorem lookup_apply (n : Text) (env : Environment) :
    lookup n env =
      ⟨match env.scopes.get? n with
        | some v => .ok v
        | none => .error (.ofCause (.unbound n)), env, []⟩ := by
  unfold lookup
  cases env.scopes.get? n <;> rfl

/-- An assignment either fails and changes nothing, or changes the innermost binding. -/
theorem assign_cases (n : Text) (v : Expr) (env : Environment) :
    (Scopes.level? n env.scopes.frames = none ∧
        assign n v env = ⟨.error (.ofCause (.unassignable n)), env, []⟩) ∨
      ∃ level, Scopes.level? n env.scopes.frames = some level ∧
        assign n v env =
          ⟨.ok (), { env with scopes := env.scopes.put n v }, [.assigned n v level]⟩ := by
  unfold assign
  cases h : Scopes.level? n env.scopes.frames with
  | none => exact Or.inl ⟨rfl, rfl⟩
  | some level => exact Or.inr ⟨level, rfl, rfl⟩

theorem define_cases (target : Expr) (m : Eval Expr) :
    (∃ n, target = .sym n ∧ define target m = m >>= declare n) ∨
      define target m = refuse .notDefinable target := by
  cases target with
  | sym n => exact Or.inl ⟨n, rfl, rfl⟩
  | _ => exact Or.inr rfl

theorem assignTo_cases (target : Expr) (m : Eval Expr) :
    (∃ n, target = .sym n ∧ assignTo target m = m >>= fun v => assign n v >>= fun _ => pure v) ∨
      assignTo target m = refuse .badTarget target := by
  cases target with
  | sym n => exact Or.inl ⟨n, rfl, rfl⟩
  | _ => exact Or.inr rfl

/-- A call is refused, and nothing changed, or it is counted while it runs. -/
theorem counted_cases (m : Eval α) (env : Environment) :
    (env.maxDepth ≤ env.depth ∧
        counted m env = ⟨.error (.ofCause (.tooDeep env.maxDepth)), env, []⟩) ∨
      env.depth < env.maxDepth ∧
        counted m env =
          let r := m { env with depth := env.depth + 1 }
          ⟨r.result, { r.env with depth := r.env.depth - 1 },
            .entered (env.depth + 1) :: r.events⟩ := by
  unfold counted
  by_cases h : env.maxDepth ≤ env.depth
  · exact Or.inl ⟨h, if_pos h⟩
  · exact Or.inr ⟨by omega, if_neg h⟩

theorem dispatched_of_error {form : Builtin} {m : Eval α} {env : Environment} {f : Fault}
    (k : Nat) (h : (m env).result = .error f) :
    dispatched form k m env =
      ⟨.error (f.addNote (.inForm form)), (m env).env, .dispatched form k :: (m env).events⟩ := by
  unfold dispatched
  simp only [h]

theorem dispatched_of_ok {form : Builtin} {m : Eval α} {env : Environment} {a : α} (k : Nat)
    (h : (m env).result = .ok a) :
    dispatched form k m env =
      ⟨.ok a, (m env).env, .dispatched form k :: ((m env).events ++ [.returned form])⟩ := by
  unfold dispatched
  simp only [h]

/-- A form that is called has its value, or its failure with one more note. -/
theorem dispatched_cases (form : Builtin) (k : Nat) (m : Eval α) (env : Environment) :
    (∃ f, (m env).result = .error f ∧
        dispatched form k m env =
          ⟨.error (f.addNote (.inForm form)), (m env).env,
            .dispatched form k :: (m env).events⟩) ∨
      ∃ a, (m env).result = .ok a ∧
        dispatched form k m env =
          ⟨.ok a, (m env).env, .dispatched form k :: ((m env).events ++ [.returned form])⟩ := by
  cases h : (m env).result with
  | error f => exact Or.inl ⟨f, rfl, dispatched_of_error k h⟩
  | ok a => exact Or.inr ⟨a, rfl, dispatched_of_ok k h⟩

/-! ## Lists with a name in front -/

theorem evaluate_of_limit {n : Text} {es : List Expr} {env : Environment}
    (h : env.maxDepth ≤ env.depth) :
    evaluate (.list (.sym n :: es)) env = ⟨.error (.ofCause (.tooDeep env.maxDepth)), env, []⟩ := by
  rw [evaluate]
  exact if_pos h

/-- A list whose head names no form fails like its head. -/
theorem evaluate_uncallable {n : Text} (hb : Builtin.ofName? n = none) (es : List Expr)
    {env : Environment} (h : env.depth < env.maxDepth) :
    (evaluate (.list (.sym n :: es)) env).result =
      (uncallable n { env with depth := env.depth + 1 }).result := by
  rw [evaluate, hb]
  rcases counted_cases (uncallable n : Eval Expr) env with ⟨hle, -⟩ | ⟨-, hrun⟩
  · omega
  · rw [hrun]

/-- A list that calls a form has what comes of the form, and its failures are noted. -/
theorem evaluate_call {n : Text} {b : Builtin} (hb : Builtin.ofName? n = some b) (es : List Expr)
    {env : Environment} (h : env.depth < env.maxDepth) :
    let call := applyForm b es { env with depth := env.depth + 1 }
    (evaluate (.list (.sym n :: es)) env).result = call.result.mapError (·.addNote (.inForm b)) ∧
      (evaluate (.list (.sym n :: es)) env).env =
        { call.env with depth := call.env.depth - 1 } := by
  intro call
  rw [evaluate, hb]
  rcases counted_cases (dispatched b es.length (applyForm b es)) env with ⟨hle, -⟩ | ⟨-, hrun⟩
  · omega
  · rw [hrun]
    rcases dispatched_cases b es.length (applyForm b es) { env with depth := env.depth + 1 } with
      ⟨f, hf, hcall⟩ | ⟨v, hv, hcall⟩
    · rw [hcall, show call.result = .error f from hf]
      exact ⟨rfl, rfl⟩
    · rw [hcall, show call.result = .ok v from hv]
      exact ⟨rfl, rfl⟩

/-! ## The events of steps -/

/-- What happens in two computations happens in the first one or, after a value, in the second. -/
theorem mem_events_bind {β : Type} {m : Eval α} {k : α → Eval β} {env : Environment} {x : Event}
    (h : x ∈ ((m >>= k) env).events) :
    x ∈ (m env).events ∨ ∃ a, (m env).result = .ok a ∧ x ∈ (k a (m env).env).events := by
  rcases bind_cases m k env with ⟨f, -, hrun⟩ | ⟨a, ha, hrun⟩
  · rw [hrun] at h
    exact Or.inl h
  · rw [hrun] at h
    exact (List.mem_append.mp h).imp id (fun h => ⟨a, ha, h⟩)

theorem not_mem_events_refuse {c : Text → Cause} {e : Expr} {env : Environment} {x : Event} :
    x ∉ (refuse c e env : Run Fault α).events := by
  obtain ⟨f, h⟩ := refuse_apply (α := α) c e
  rw [h]
  exact List.not_mem_nil

/-- Summands are looked up, and nothing else happens. -/
theorem not_mem_events_summand {e : Expr} {env : Environment} {x : Event} :
    x ∉ (summand e env).events := by
  intro h
  cases e with
  | num y => cases h
  | sym n =>
      rcases mem_events_bind h with h | ⟨v, -, h⟩
      · rw [lookup_apply] at h
        cases h
      · cases v with
        | num y => cases h
        | _ => exact not_mem_events_refuse h
  | _ => exact not_mem_events_refuse h

theorem not_mem_events_sum {total : Binary64} {es : List Expr} {env : Environment} {x : Event} :
    x ∉ (sum total es env).events := by
  intro h
  induction es generalizing total env with
  | nil => cases h
  | cons e es ih =>
      rcases mem_events_bind h with h | ⟨y, -, h⟩
      · exact not_mem_events_summand h
      · exact ih h

end Eval

end MiniLisp
