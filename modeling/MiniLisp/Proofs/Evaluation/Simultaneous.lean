import MiniLisp.Proofs.Evaluation.Correspondence
import MiniLisp.Proofs.Evaluation.Effects

set_option autoImplicit false

/-! # The order of bindings

The values of the bindings of a `let` are evaluated one after the other, in the environment around
it. If none of them has an effect, each finds the environment that the first one finds, whatever
their order. So in every order there is a value that fails, or the frames of the bindings bind the
same names to the same values, in different places.

The place of a binding in its frame is not seen by any evaluation. A body that runs on top of one
frame corresponds to its run on top of the other: all frames bind the same names to the same values,
and those that were there before are equal (`Reordered`). When the frame of the bindings is taken
off, there is no difference left.
-/

namespace MiniLisp

open Eval Scopes

/-! ## Frames in a different order -/

/-- The frames `gs` are the frames `fs` with their bindings in another order, except that the
outermost frames, so many of them, are the same. -/
inductive Reordered (size : ℕ) : List Frame → List Frame → Prop
  | nil : Reordered size [] []
  | cons {f g : Frame} {fs gs : List Frame} : (∀ n, g.get? n = f.get? n) →
      (fs.length < size → g = f) → Reordered size fs gs → Reordered size (f :: fs) (g :: gs)

namespace Reordered

variable {size : ℕ} {fs gs : List Frame}

theorem refl (size : ℕ) (fs : List Frame) : Reordered size fs fs := by
  induction fs with
  | nil => exact .nil
  | cons f fs ih => exact .cons (fun _ => rfl) (fun _ => rfl) ih

theorem length_eq (h : Reordered size fs gs) : gs.length = fs.length := by
  induction h with
  | nil => rfl
  | cons _ _ _ ih => rw [List.length_cons, List.length_cons, ih]

/-- If there are not more frames than those that are the same, there is no difference. -/
theorem eq_of_length_le (h : Reordered size fs gs) (hle : fs.length ≤ size) : gs = fs := by
  induction h with
  | nil => rfl
  | @cons f g fs gs _ hsame _ ih =>
      rw [List.length_cons] at hle
      rw [hsame hle, ih (Nat.le_of_succ_le hle)]

theorem valueIn_eq (h : Reordered size fs gs) (n : Text) : valueIn n gs = valueIn n fs := by
  induction h with
  | nil => rfl
  | cons hget _ _ ih => rw [valueIn_cons, valueIn_cons, hget, ih]

theorem binds_eq {f g : Frame} (h : ∀ n, g.get? n = f.get? n) (n : Text) :
    g.binds n = f.binds n := by
  rw [← Frame.isSome_get?, ← Frame.isSome_get?, h]

theorem level?_eq (h : Reordered size fs gs) (n : Text) : level? n gs = level? n fs := by
  induction h with
  | nil => rfl
  | cons hget _ ht ih => rw [level?, level?, binds_eq hget, ht.length_eq, ih]

/-- An assignment goes to the same frame on both sides. -/
theorem putInnermost (h : Reordered size fs gs) (n : Text) (v : Expr) :
    Reordered size (putInnermost n v fs) (putInnermost n v gs) := by
  induction h with
  | nil => exact .nil
  | @cons f g fs gs hget hsame ht ih =>
      rw [Scopes.putInnermost, Scopes.putInnermost, binds_eq hget]
      split
      · refine .cons (fun m => ?_) (fun hlt => by rw [hsame hlt]) ht
        rw [Frame.get?_put, Frame.get?_put, hget]
      · refine .cons hget (fun hlt => hsame ?_) ih
        rwa [length_putInnermost] at hlt

theorem outermost (h : Reordered size fs gs) (k : ℕ) :
    Reordered size (outermost k fs) (outermost k gs) := by
  induction h with
  | nil => exact .nil
  | @cons f g fs gs hget hsame ht ih =>
      cases ht with
      | nil => exact .cons hget hsame .nil
      | cons hget' hsame' ht' =>
          have hlength := (Reordered.cons hget' hsame' ht').length_eq
          rw [Scopes.outermost, Scopes.outermost, hlength]
          split
          · exact ih
          · exact .cons hget hsame (.cons hget' hsame' ht')

end Reordered

/-- Environments with the bindings of their frames in a different order, except for the outermost
frames, so many of them. -/
def reordered (size : ℕ) : Correspondence where
  rel env₁ env₂ := Reordered size env₁.scopes.frames env₂.scopes.frames ∧
    env₂.depth = env₁.depth ∧ env₂.maxDepth = env₁.maxDepth
  excused _ := False
  excused_addNote _ hf := hf
  size h := h.1.length_eq
  get? h n := h.1.valueIn_eq n
  level? h n := h.1.level?_eq n
  depth h := h.2.1
  limit h := Or.inl h.2.2
  put h n v := ⟨h.1.putInnermost n v, h.2⟩
  push h _ := ⟨.cons (fun _ => rfl) (fun _ => rfl) h.1, h.2⟩
  shrink h n := ⟨h.1.outermost n, h.2⟩
  withDepth h _ _ hd := ⟨h.1, hd, h.2.2⟩

/-- A body runs alike on top of two frames that bind the same names to the same values. -/
theorem within_reordered {f g : Frame} (h : ∀ n, g.get? n = f.get? n) (es : List Expr)
    (env : Environment) :
    (within g (applyForm .sequence es) env).result =
        (within f (applyForm .sequence es) env).result ∧
      (within g (applyForm .sequence es) env).env =
        (within f (applyForm .sequence es) env).env := by
  have hpush : (reordered env.scopes.size).rel { env with scopes := env.scopes.push f }
      { env with scopes := env.scopes.push g } :=
    ⟨.cons h (fun hlt => absurd hlt (lt_irrefl _)) (.refl _ _), rfl, rfl⟩
  rcases (reordered env.scopes.size).applyForm hpush .sequence es with
    ⟨_, _, hexcused⟩ | ⟨hresult, -, hframes, hdepth, hmax⟩
  · exact hexcused.elim
  · refine ⟨hresult, Environment.ext (Scopes.ext ?_) hdepth hmax⟩
    -- what is left are the frames that were there before, which are the same
    have hpos : 0 < env.scopes.size := List.length_pos_iff.mpr env.scopes.nonempty
    exact (hframes.outermost env.scopes.size).eq_of_length_le (length_outermost_le hpos _)

/-! ## Bindings in a different order -/

/-- A binding of a `let`, as it is written. -/
def binding (p : Text × Expr) : Expr := .list [.sym p.1, p.2]

/-- **Values without effect are evaluated in one environment.** The bindings fail for a value that
fails there, or they have a frame with the value of each name; the environment stays as it is. -/
theorem bindAll_of_effectless {pairs : List (Text × Expr)}
    (hvalues : ∀ p ∈ pairs, p.2.Effectless) (hnames : (pairs.map Prod.fst).Nodup) (f : Frame)
    (env : Environment) :
    (bindAll f (pairs.map binding) env).env = env ∧
      ((∃ fault, (bindAll f (pairs.map binding) env).result = .error fault ∧
          ∃ p ∈ pairs, (evaluate p.2 env).result = .error fault) ∨
        ∃ g, (bindAll f (pairs.map binding) env).result = .ok g ∧
          (∀ p ∈ pairs, ∃ v, (evaluate p.2 env).result = .ok v ∧ g.get? p.1 = some v) ∧
          ∀ n, n ∉ pairs.map Prod.fst → g.get? n = f.get? n) := by
  induction pairs generalizing f with
  | nil => exact ⟨rfl, Or.inr ⟨f, rfl, by simp, fun _ _ => rfl⟩⟩
  | cons p pairs ih =>
      rw [List.map_cons, List.nodup_cons] at hnames
      have hrest : ∀ q ∈ pairs, q.2.Effectless := fun q hq =>
        hvalues q (List.mem_cons_of_mem p hq)
      have henv : (evaluate p.2 env).env = env :=
        env_evaluate_of_effectless (hvalues p List.mem_cons_self) env
      have hstep : bindAll f ((p :: pairs).map binding) =
          evaluate p.2 >>= fun v => bindAll (f.put p.1 v) (pairs.map binding) := rfl
      rw [hstep]
      cases hvalue : (evaluate p.2 env).result with
      | error fault =>
          rw [bind_of_error _ hvalue]
          exact ⟨henv, Or.inl ⟨fault, rfl, p, List.mem_cons_self, hvalue⟩⟩
      | ok v =>
          obtain ⟨hleft, hcases⟩ := ih hrest hnames.2 (f.put p.1 v)
          rw [bind_of_ok _ hvalue, henv]
          refine ⟨hleft, ?_⟩
          rcases hcases with ⟨fault, hfault, q, hq, hqfault⟩ | ⟨g, hg, hbound, hother⟩
          · exact Or.inl ⟨fault, hfault, q, List.mem_cons_of_mem p hq, hqfault⟩
          · refine Or.inr ⟨g, hg, List.forall_mem_cons.mpr ⟨⟨v, hvalue, ?_⟩, hbound⟩, ?_⟩
            · rw [hother p.1 hnames.1, Frame.get?_put_self]
            · intro n hn
              rw [List.map_cons, List.mem_cons, not_or] at hn
              rw [hother n hn.2, Frame.get?_put_of_ne f v hn.1]

/-- In another order the bindings fail too, or they have a frame with the same values. -/
theorem bindAll_perm {pairs pairs' : List (Text × Expr)} (hperm : pairs'.Perm pairs)
    (hvalues : ∀ p ∈ pairs, p.2.Effectless) (hnames : (pairs.map Prod.fst).Nodup) (f : Frame)
    (env : Environment) :
    (bindAll f (pairs'.map binding) env).env = (bindAll f (pairs.map binding) env).env ∧
      ((∃ fault fault', (bindAll f (pairs.map binding) env).result = .error fault ∧
          (bindAll f (pairs'.map binding) env).result = .error fault') ∨
        ∃ g g', (bindAll f (pairs.map binding) env).result = .ok g ∧
          (bindAll f (pairs'.map binding) env).result = .ok g' ∧
          ∀ n, g'.get? n = g.get? n) := by
  have hmem : ∀ {p}, p ∈ pairs' ↔ p ∈ pairs := hperm.mem_iff
  have hkeys : ∀ {n}, n ∈ pairs'.map Prod.fst ↔ n ∈ pairs.map Prod.fst :=
    (hperm.map Prod.fst).mem_iff
  have hnames' : (pairs'.map Prod.fst).Nodup := (hperm.map Prod.fst).nodup_iff.mpr hnames
  obtain ⟨henv, hcases⟩ := bindAll_of_effectless hvalues hnames f env
  obtain ⟨henv', hcases'⟩ :=
    bindAll_of_effectless (fun p hp => hvalues p (hmem.mp hp)) hnames' f env
  refine ⟨henv'.trans henv.symm, ?_⟩
  rcases hcases with ⟨fault, hfault, p, hp, hpfault⟩ | ⟨g, hg, hbound, hother⟩ <;>
    rcases hcases' with ⟨fault', hfault', q, hq, hqfault⟩ | ⟨g', hg', hbound', hother'⟩
  · exact Or.inl ⟨fault, fault', hfault, hfault'⟩
  · -- a value cannot fail in one order alone
    obtain ⟨v, hv, -⟩ := hbound' p (hmem.mpr hp)
    rw [hpfault] at hv
    cases hv
  · obtain ⟨v, hv, -⟩ := hbound q (hmem.mp hq)
    rw [hqfault] at hv
    cases hv
  · refine Or.inr ⟨g, g', hg, hg', fun n => ?_⟩
    by_cases hn : n ∈ pairs.map Prod.fst
    · obtain ⟨p, hp, rfl⟩ := List.mem_map.mp hn
      obtain ⟨v, hv, hget⟩ := hbound p hp
      obtain ⟨v', hv', hget'⟩ := hbound' p (hmem.mpr hp)
      rw [hv, Except.ok.injEq] at hv'
      rw [hget, hget', hv']
    · rw [hother n hn, hother' n (fun h => hn (hkeys.mp h))]

/-! ## Lets with their bindings in a different order -/

/-- Whether two runs of a `let` come to the same: either both fail for a value of their bindings,
with the fault that the evaluation of the bindings gives and a note about it, or they have the same
result. The environments that they leave are the same in either case. -/
def SameLet (note : Fault → Fault) (values values' : Run Fault Frame)
    (r r' : Run Fault Expr) : Prop :=
  r'.env = r.env ∧
    ((∃ fault fault', values.result = .error fault ∧ r.result = .error (note fault) ∧
        values'.result = .error fault' ∧ r'.result = .error (note fault')) ∨
      r'.result = r.result)

section

variable {pairs pairs' : List (Text × Expr)}

theorem applyForm_letIn_perm (hperm : pairs'.Perm pairs)
    (hvalues : ∀ p ∈ pairs, p.2.Effectless) (hnames : (pairs.map Prod.fst).Nodup)
    (es : List Expr) (env : Environment) :
    SameLet id (bindAll .empty (pairs.map binding) env) (bindAll .empty (pairs'.map binding) env)
      (applyForm .letIn (.list (pairs.map binding) :: es) env)
      (applyForm .letIn (.list (pairs'.map binding) :: es) env) := by
  have hcall : ∀ qs : List Expr, applyForm .letIn (.list qs :: es) env =
      (bindAll .empty qs >>= fun f => within f (applyForm .sequence es)) env := fun _ => rfl
  obtain ⟨henv, hcases⟩ := bindAll_perm hperm hvalues hnames .empty env
  rcases hcases with ⟨fault, fault', hfault, hfault'⟩ | ⟨g, g', hg, hg', hget⟩
  · rw [hcall, hcall, bind_of_error _ hfault, bind_of_error _ hfault']
    exact ⟨henv, Or.inl ⟨fault, fault', hfault, rfl, hfault', rfl⟩⟩
  · rw [hcall, hcall, bind_of_ok _ hg, bind_of_ok _ hg', henv]
    obtain ⟨hresult, hleft⟩ :=
      within_reordered hget es (bindAll .empty (pairs.map binding) env).env
    exact ⟨hleft, Or.inr hresult⟩

end

/-- **The bindings of a `let` are simultaneous.** If they bind distinct names and no value among
them defines or assigns anything, a `let` comes to the same with its bindings in any other order:
either both fail for a value, or they have the same result, be it a value or a failure of the body
with its notes. They leave the same frames, with the same names and values. This holds of the call
of the form and of the list that is evaluated in a program, where the failure of a value is
noted. -/
theorem letIn_perm (pairs pairs' : List (Text × Expr)) (es : List Expr) (env : Environment)
    (hperm : pairs'.Perm pairs) (hnames : (pairs.map Prod.fst).Nodup)
    (hvalues : ∀ p ∈ pairs, p.2.Effectless) :
    SameLet id (bindAll .empty (pairs.map binding) env) (bindAll .empty (pairs'.map binding) env)
        (applyForm .letIn (.list (pairs.map binding) :: es) env)
        (applyForm .letIn (.list (pairs'.map binding) :: es) env) ∧
      SameLet (·.addNote (.inForm .letIn))
        (bindAll .empty (pairs.map binding) { env with depth := env.depth + 1 })
        (bindAll .empty (pairs'.map binding) { env with depth := env.depth + 1 })
        (evaluate (.list (.sym "let" :: .list (pairs.map binding) :: es)) env)
        (evaluate (.list (.sym "let" :: .list (pairs'.map binding) :: es)) env) := by
  refine ⟨applyForm_letIn_perm hperm hvalues hnames es env, ?_⟩
  rcases le_or_gt env.maxDepth env.depth with hle | hlt
  · rw [evaluate_of_limit hle, evaluate_of_limit hle]
    exact ⟨rfl, Or.inr rfl⟩
  · have hlet : Builtin.ofName? "let" = some .letIn := rfl
    obtain ⟨hresult, hleft⟩ := evaluate_call hlet (.list (pairs.map binding) :: es) hlt
    obtain ⟨hresult', hleft'⟩ := evaluate_call hlet (.list (pairs'.map binding) :: es) hlt
    obtain ⟨henv, hcases⟩ :=
      applyForm_letIn_perm hperm hvalues hnames es { env with depth := env.depth + 1 }
    refine ⟨by rw [hleft', hleft, henv], ?_⟩
    rw [hresult, hresult']
    rcases hcases with ⟨fault, fault', hfault, hcall, hfault', hcall'⟩ | hsame
    · rw [hcall, hcall']
      exact Or.inl ⟨fault, fault', hfault, rfl, hfault', rfl⟩
    · exact Or.inr (by rw [hsame])

/-- Two names are exchanged and one of them is assigned to in the body; the order of the bindings is
not seen. -/
theorem letIn_perm_exchanged :
    let env : Environment := .ofRoot (.ofBindings [("x", .bool true), ("y", .bool false)]) 100
    let pairs : List (Text × Expr) := [("x", .sym "y"), ("y", .sym "x")]
    let pairs' : List (Text × Expr) := [("y", .sym "x"), ("x", .sym "y")]
    let es : List Expr := [.list [.sym "set", .sym "x", .list [.sym "eval"]], .sym "y"]
    pairs'.Perm pairs ∧ (pairs.map Prod.fst).Nodup ∧ (∀ p ∈ pairs, p.2.Effectless) ∧
      (evaluate (.list (.sym "let" :: .list (pairs'.map binding) :: es)) env).result =
        .ok (.bool true) ∧
      (evaluate (.list (.sym "let" :: .list (pairs'.map binding) :: es)) env).env =
        (evaluate (.list (.sym "let" :: .list (pairs.map binding) :: es)) env).env := by
  intro env pairs pairs' es
  have hperm : pairs'.Perm pairs := List.Perm.swap _ _ _
  have hnames : (pairs.map Prod.fst).Nodup := by decide
  have hvalues : ∀ p ∈ pairs, p.2.Effectless := by decide
  obtain ⟨-, henv, hcases⟩ := letIn_perm pairs pairs' es env hperm hnames hvalues
  refine ⟨hperm, hnames, hvalues, ?_, henv⟩
  have hresult : (evaluate (.list (.sym "let" :: .list (pairs.map binding) :: es)) env).result =
      .ok (.bool true) := rfl
  rcases hcases with ⟨fault, _, _, hfault, _⟩ | hsame
  · rw [hresult] at hfault
    contradiction
  · exact hsame.trans hresult

end MiniLisp
