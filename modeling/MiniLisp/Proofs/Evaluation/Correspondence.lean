import MiniLisp.Proofs.Evaluation.Discipline
import MiniLisp.Proofs.Scope.Stack

set_option autoImplicit false

/-! # Corresponding runs

An evaluation is run in two environments that correspond to one another. A `Correspondence` is a
relation between environments that the steps keep and in which they find the same: the same values
of names, the same number of frames, the same count. Then the two runs have the same result and the
same events, and they leave corresponding environments (`Correspondence.evaluate`).

The limits may differ, if the first environment has the lower one. Where it refuses a call and the
second does not, the runs part; so a correspondence names the faults after which nothing is said of
the second run (`excused`). A note does not change whether a fault is one of these, and nothing in
an evaluation takes a fault back, so the two runs part for good.
-/

namespace MiniLisp

open Eval

/-- A relation between environments, with what makes runs correspond that begin in related ones. -/
structure Correspondence where
  rel : Environment → Environment → Prop
  /-- The faults of the first run after which nothing is said of the second. -/
  excused : Fault → Prop
  excused_addNote : ∀ {f : Fault} (n : Note), excused f → excused (f.addNote n)
  size : ∀ {env₁ env₂ : Environment}, rel env₁ env₂ → env₂.scopes.size = env₁.scopes.size
  get? : ∀ {env₁ env₂ : Environment}, rel env₁ env₂ → ∀ n,
    env₂.scopes.get? n = env₁.scopes.get? n
  level? : ∀ {env₁ env₂ : Environment}, rel env₁ env₂ → ∀ n,
    Scopes.level? n env₂.scopes.frames = Scopes.level? n env₁.scopes.frames
  depth : ∀ {env₁ env₂ : Environment}, rel env₁ env₂ → env₂.depth = env₁.depth
  limit : ∀ {env₁ env₂ : Environment}, rel env₁ env₂ → env₂.maxDepth = env₁.maxDepth ∨
    env₁.maxDepth ≤ env₂.maxDepth ∧ excused (.ofCause (.tooDeep env₁.maxDepth))
  put : ∀ {env₁ env₂ : Environment}, rel env₁ env₂ → ∀ n v,
    rel { env₁ with scopes := env₁.scopes.put n v } { env₂ with scopes := env₂.scopes.put n v }
  push : ∀ {env₁ env₂ : Environment}, rel env₁ env₂ → ∀ f,
    rel { env₁ with scopes := env₁.scopes.push f } { env₂ with scopes := env₂.scopes.push f }
  shrink : ∀ {env₁ env₂ : Environment}, rel env₁ env₂ → ∀ n,
    rel { env₁ with scopes := env₁.scopes.shrink n } { env₂ with scopes := env₂.scopes.shrink n }
  withDepth : ∀ {env₁ env₂ : Environment}, rel env₁ env₂ → ∀ {d₁ d₂}, d₂ = d₁ →
    rel { env₁ with depth := d₁ } { env₂ with depth := d₂ }

namespace Correspondence

variable (C : Correspondence)

/-- Two runs have the same result and the same events and leave corresponding environments, unless
the first one fails with an excused fault. -/
def Agree {α : Type} (r₁ r₂ : Run Fault α) : Prop :=
  (∃ f, r₁.result = .error f ∧ C.excused f) ∨
    r₂.result = r₁.result ∧ r₂.events = r₁.events ∧ C.rel r₁.env r₂.env

/-- Whether runs of a computation in corresponding environments agree, with results that have a
property. -/
def Holds {α : Type} (post : α → Prop) (m : Eval α) : Prop :=
  ∀ env₁ env₂, C.rel env₁ env₂ →
    C.Agree (m env₁) (m env₂) ∧ ∀ a, (m env₁).result = .ok a → post a

variable {C} {α β : Type} {post : α → Prop}

theorem Agree.of_ok {r₁ r₂ : Run Fault α} (h : C.Agree r₁ r₂) {a : α} (ha : r₁.result = .ok a) :
    r₂.result = .ok a ∧ r₂.events = r₁.events ∧ C.rel r₁.env r₂.env := by
  rcases h with ⟨f, hf, -⟩ | ⟨hres, h⟩
  · rw [ha] at hf
    cases hf
  · exact ⟨hres.trans ha, h⟩

theorem Agree.of_error {r₁ r₂ : Run Fault α} (h : C.Agree r₁ r₂) {f : Fault}
    (hf : r₁.result = .error f) :
    C.excused f ∨ r₂.result = .error f ∧ r₂.events = r₁.events ∧ C.rel r₁.env r₂.env := by
  rcases h with ⟨g, hg, hexcused⟩ | ⟨hres, h⟩
  · rw [hf] at hg
    cases hg
    exact Or.inl hexcused
  · exact Or.inr ⟨hres.trans hf, h⟩

theorem Holds.pure {a : α} (ha : post a) : C.Holds post (Pure.pure a) := by
  intro env₁ env₂ h
  refine ⟨Or.inr ⟨rfl, rfl, h⟩, ?_⟩
  rintro b ⟨⟩
  exact ha

theorem Holds.bind {next : β → Prop} {m : Eval α} {k : α → Eval β} (hm : C.Holds post m)
    (hk : ∀ a, post a → C.Holds next (k a)) : C.Holds next (m >>= k) := by
  intro env₁ env₂ h
  obtain ⟨hagree, hpost⟩ := hm env₁ env₂ h
  rcases bind_cases m k env₁ with ⟨f, hf, h₁⟩ | ⟨a, ha, h₁⟩
  · rw [h₁]
    refine ⟨?_, fun b hb => by cases hb⟩
    rcases hagree.of_error hf with hexcused | ⟨hf₂, hevents, hrel⟩
    · exact Or.inl ⟨f, rfl, hexcused⟩
    · rw [bind_of_error k hf₂]
      exact Or.inr ⟨rfl, hevents, hrel⟩
  · -- the first computation has a value, so the runs are still together
    obtain ⟨ha₂, hevents, hrel⟩ := hagree.of_ok ha
    obtain ⟨hagree', hnext⟩ := hk a (hpost a ha) _ _ hrel
    rw [h₁, bind_of_ok k ha₂]
    refine ⟨?_, hnext⟩
    rcases hagree' with hexcused | ⟨hres', hevents', hrel'⟩
    · exact Or.inl hexcused
    · exact Or.inr ⟨hres', congrArg₂ (· ++ ·) hevents hevents', hrel'⟩

/-- A computation that fails at once with the same fault in both environments. -/
theorem Holds.of_error {m : Eval α} (fault : Environment → Fault)
    (hm : ∀ env, m env = ⟨.error (fault env), env, []⟩)
    (hfault : ∀ {env₁ env₂}, C.rel env₁ env₂ → fault env₂ = fault env₁) : C.Holds post m := by
  intro env₁ env₂ h
  rw [hm, hm, hfault h]
  exact ⟨Or.inr ⟨rfl, rfl, h⟩, fun a ha => by cases ha⟩

theorem Holds.raise (f : Fault) : C.Holds post (Eval.raise f) :=
  .of_error (fun _ => f) (fun _ => rfl) (fun _ => rfl)

theorem Holds.refuse (c : Text → Cause) (e : Expr) : C.Holds post (Eval.refuse c e) := by
  obtain ⟨f, hf⟩ := refuse_apply c e
  exact .of_error (fun _ => f) hf (fun _ => rfl)

theorem Holds.uncallable (n : Text) : C.Holds post (Eval.uncallable n) :=
  .of_error _ (uncallable_apply n) (fun h => by rw [C.get? h])

theorem Holds.lookup (n : Text) : C.Holds (fun _ => True) (Eval.lookup n) := by
  intro env₁ env₂ h
  rw [lookup_apply, lookup_apply, C.get? h]
  exact ⟨Or.inr ⟨rfl, rfl, h⟩, fun _ _ => trivial⟩

theorem Holds.assign (n : Text) (v : Expr) : C.Holds (fun _ => True) (Eval.assign n v) := by
  intro env₁ env₂ h
  refine ⟨Or.inr ?_, fun _ _ => trivial⟩
  have hlevel := C.level? h n
  rcases assign_cases n v env₁ with ⟨hl₁, h₁⟩ | ⟨level₁, hl₁, h₁⟩ <;>
    rcases assign_cases n v env₂ with ⟨hl₂, h₂⟩ | ⟨level₂, hl₂, h₂⟩ <;>
    rw [hl₁, hl₂] at hlevel
  · rw [h₁, h₂]
    exact ⟨rfl, rfl, h⟩
  · cases hlevel
  · cases hlevel
  · cases hlevel
    rw [h₁, h₂]
    exact ⟨rfl, rfl, C.put h n v⟩

theorem Holds.declare (n : Text) (v : Expr) : C.Holds (fun _ => True) (Eval.declare n v) := by
  intro env₁ env₂ h
  rw [declare_apply, declare_apply, C.size h]
  exact ⟨Or.inr ⟨rfl, rfl, C.push h _⟩, fun _ _ => trivial⟩

theorem Holds.within {m : Eval Expr} (hm : C.Holds (fun _ => True) m) (f : Frame) :
    C.Holds (fun _ => True) (Eval.within f m) := by
  intro env₁ env₂ h
  refine ⟨?_, fun _ _ => trivial⟩
  obtain ⟨hagree, -⟩ := hm _ _ (C.push h f)
  rcases hagree with hexcused | ⟨hres, hevents, hrel⟩
  · exact Or.inl hexcused
  · -- both bodies are cut back to the same number of frames
    rw [within_apply, within_apply, C.size h]
    refine Or.inr ⟨hres, ?_, C.shrink hrel _⟩
    simp only [hevents, C.size hrel]

/-- A call is counted in both runs or refused in both, or else the first run is excused. -/
theorem Holds.counted {m : Eval Expr} (hm : C.Holds (fun _ => True) m) :
    C.Holds (fun _ => True) (Eval.counted m) := by
  intro env₁ env₂ h
  refine ⟨?_, fun _ _ => trivial⟩
  have hdepth := C.depth h
  have hlimit := C.limit h
  rcases counted_cases m env₁ with ⟨hle₁, h₁⟩ | ⟨hlt₁, h₁⟩
  · rcases hlimit with hlimit | ⟨-, hexcused⟩
    · rcases counted_cases m env₂ with ⟨-, h₂⟩ | ⟨hlt₂, -⟩
      · rw [h₁, h₂, hlimit]
        exact Or.inr ⟨rfl, rfl, h⟩
      · omega
    · rw [h₁]
      exact Or.inl ⟨_, rfl, hexcused⟩
  · rcases counted_cases m env₂ with ⟨hle₂, -⟩ | ⟨-, h₂⟩
    · omega
    · rw [h₁, h₂]
      have hin := C.withDepth h (congrArg (· + 1) hdepth)
      rcases (hm _ _ hin).1 with hexcused | ⟨hres, hevents, hrel⟩
      · exact Or.inl hexcused
      · have hout := C.withDepth hrel (congrArg (· - 1) (C.depth hrel))
        have hentered : Event.entered (env₂.depth + 1) = .entered (env₁.depth + 1) := by
          rw [hdepth]
        exact Or.inr ⟨hres, congrArg₂ List.cons hentered hevents, hout⟩

theorem Holds.dispatched (b : Builtin) (k : Nat) {m : Eval Expr}
    (hm : C.Holds (fun _ => True) m) : C.Holds (fun _ => True) (Eval.dispatched b k m) := by
  intro env₁ env₂ h
  refine ⟨?_, fun _ _ => trivial⟩
  obtain ⟨hagree, -⟩ := hm env₁ env₂ h
  rcases dispatched_cases b k m env₁ with ⟨f, hf, h₁⟩ | ⟨a, ha, h₁⟩
  · rw [h₁]
    rcases hagree.of_error hf with hexcused | ⟨hf₂, hevents, hrel⟩
    · exact Or.inl ⟨_, rfl, C.excused_addNote _ hexcused⟩
    · rw [dispatched_of_error k hf₂, hevents]
      exact Or.inr ⟨rfl, rfl, hrel⟩
  · obtain ⟨ha₂, hevents, hrel⟩ := hagree.of_ok ha
    rw [h₁, dispatched_of_ok k ha₂, hevents]
    exact Or.inr ⟨rfl, rfl, hrel⟩

variable (C)

/-- Runs of every computation of an evaluation agree in corresponding environments. -/
def discipline : Discipline where
  code _ := True
  form _ := True
  value _ := True
  holds := C.Holds
  code_item _ _ := trivial
  form_of_code _ _ := trivial
  value_bool _ := trivial
  value_num _ := trivial
  value_str _ := trivial
  value_nil := trivial
  pure := Holds.pure
  bind := Holds.bind
  fail c := Holds.raise (.ofCause c)
  refuse c e _ := Holds.refuse c e
  foreign _ := Holds.raise _
  lookup _ := Holds.lookup _
  assign _ _ _ := Holds.assign _ _
  declare _ _ _ := Holds.declare _ _
  within _ hm := Holds.within hm _
  counted := Holds.counted
  dispatched hm := Holds.dispatched _ _ hm
  uncallable _ := Holds.uncallable _

variable {env₁ env₂ : Environment}

/-- **Runs in corresponding environments agree.** -/
theorem evaluate (h : C.rel env₁ env₂) (e : Expr) :
    C.Agree (MiniLisp.evaluate e env₁) (MiniLisp.evaluate e env₂) :=
  (C.discipline.evaluate trivial env₁ env₂ h).1

/-- So do calls of a form. -/
theorem applyForm (h : C.rel env₁ env₂) (b : Builtin) (es : List Expr) :
    C.Agree (MiniLisp.applyForm b es env₁) (MiniLisp.applyForm b es env₂) :=
  (C.discipline.applyForm trivial (fun _ _ => trivial) env₁ env₂ h).1

end Correspondence

end MiniLisp
