import MiniLisp.Proofs.Evaluation.Frames

set_option autoImplicit false

/-! # What the body of a `let` can change

An assignment goes to the innermost frame that binds the name. While a body runs, no frame that it
has found is taken off and none changes its names, so an assignment that goes below the frames
pushed since goes to the frame that was the innermost one for the name from the start (`Aimed`).
For a name that the `let` binds this is the frame of the `let` itself. So no assignment to such a
name gets through to the frames outside (`letIn_protects`); one to another name gets through to a
single frame.
-/

namespace MiniLisp

open Event Eval Scopes

/-! ## Where assignments go -/

/-- Whether every assignment that a course of events makes in the frames of a stack is made in the
frame that is the innermost one for the name. -/
def Aimed (fs : List Frame) (events : List Event) : Prop :=
  ∀ n v level, .assigned n v level ∈ events → level < fs.length → level? n fs = some level

namespace Aimed

variable {fs gs : List Frame} {events more : List Event}

theorem of_isQuiet (h : ∀ e ∈ events, e.isQuiet = true) : Aimed fs events := by
  intro n v level he
  have := h _ he
  contradiction

/-- What is assigned later is aimed at the frames that were there, whatever has been pushed on
them. -/
theorem trans (h : Aimed fs events) (hrun : StackRun events fs gs) (hm : Aimed gs more) :
    Aimed fs (events ++ more) := by
  intro n v level he hlt
  rcases List.mem_append.mp he with he | he
  · exact h n v level he hlt
  · obtain ⟨pushed, kept, rfl, hkept, -, -⟩ := hrun.split
    have hlt' : level < kept.length := by rwa [hkept.length_eq]
    have hlevel : level? n (pushed ++ kept) = some level := by
      apply hm n v level he
      rw [List.length_append]
      omega
    rw [← hkept.level?_eq n]
    exact level?_of_append hlevel hlt'

/-- What is assigned in a body is aimed at the frames around its own. -/
theorem of_cons {f : Frame} (h : Aimed (f :: fs) events) : Aimed fs events := by
  intro n v level he hlt
  have hlevel : level? n ([f] ++ fs) = some level := by
    apply h n v level he
    rw [List.length_cons]
    omega
  exact level?_of_append hlevel hlt

/-- Quiet events, and the marks of a body, around a course of events do not count. -/
theorem of_mem (h : Aimed fs events)
    (hmem : ∀ n v level, .assigned n v level ∈ more → .assigned n v level ∈ events) :
    Aimed fs more :=
  fun n v level he => h n v level (hmem n v level he)

end Aimed

/-- Every evaluation leaves the stack as its events tell, and its assignments are aimed at the
innermost frames of the names. -/
def aimedPassage : Passage where
  rel env events left := stackPassage.rel env events left ∧ Aimed env.scopes.frames events
  quiet h := ⟨stackPassage.quiet h, .of_isQuiet h⟩
  trans := fun ⟨hrun, haimed⟩ ⟨hrun', haimed'⟩ =>
    ⟨hrun.trans hrun', haimed.trans hrun haimed'⟩
  assigned v h := by
    refine ⟨stackPassage.assigned v h, ?_⟩
    intro m w level he _
    cases List.mem_singleton.mp he
    exact h
  declared env n v := by
    refine ⟨stackPassage.declared env n v, ?_⟩
    intro m w level he
    simp [declare_apply] at he
  within := by
    rintro env f m ⟨hrun, haimed⟩
    refine ⟨stackPassage.within hrun, haimed.of_cons.of_mem ?_⟩
    intro n v level he
    simpa [within_apply, popEvents] using he
  counted := by
    rintro env left events hlt ⟨hrun, haimed⟩
    refine ⟨stackPassage.counted hlt hrun, haimed.of_mem ?_⟩
    intro n v level he
    simpa using he

/-! ## The frames outside a `let` -/

/-- The value that an event assigns to a name in one of the outermost frames, so many of them. -/
def Event.reaches? (n : Text) (size : ℕ) : Event → Option Expr
  | .assigned m v level => if m = n ∧ level < size then some v else none
  | _ => none

/-- The value that a course of events assigns last to a name in one of the outermost frames. An
assignment goes there if no frame inside these binds the name. -/
def Event.lastReaching (n : Text) (size : ℕ) (events : List Event) : Option Expr :=
  (events.filterMap (reaches? n size)).getLast?

namespace Aimed

variable {f : Frame} {fs : List Frame} {events : List Event} {n : Text}

/-- No assignment to a name that the frame of a `let` binds goes to a frame outside it. -/
theorem lastAssigned_of_binds (h : Aimed (f :: fs) events) (hf : f.binds n = true) {level : ℕ}
    (hlt : level < fs.length) : lastAssigned n level events = none := by
  apply lastAssigned_eq_none_of_not_mem
  intro v he
  have hlevel := h n v level he (by rw [List.length_cons]; omega)
  rw [level?_cons_of_binds hf, Option.some.injEq] at hlevel
  omega

/-- An assignment to another name goes, of the frames outside, to the innermost one that binds the
name, or to none. -/
theorem level?_of_reaches (h : Aimed (f :: fs) events) (hf : ¬ f.binds n = true) {v : Expr}
    {level : ℕ} (he : .assigned n v level ∈ events) (hlt : level < fs.length) :
    level? n fs = some level := by
  rw [← level?_cons_of_not_binds hf]
  exact h n v level he (by rw [List.length_cons]; omega)

theorem lastAssigned_of_not_binds (h : Aimed (f :: fs) events) (hf : ¬ f.binds n = true)
    {level : ℕ} (hlt : level < fs.length) :
    lastAssigned n level events =
      if level? n fs = some level then lastReaching n fs.length events else none := by
  split
  · next hlevel =>
      -- of the events of the body, the same ones count on both sides
      rw [lastAssigned, lastReaching]
      congr 1
      apply List.filterMap_congr
      intro e he
      cases e with
      | assigned m v level' =>
          rw [assigns?, reaches?]
          by_cases hm : m = n
          · subst hm
            refine if_congr ?_ rfl rfl
            constructor
            · rintro ⟨-, rfl⟩
              exact ⟨rfl, hlt⟩
            · rintro ⟨-, hlt'⟩
              have := h.level?_of_reaches hf he hlt'
              rw [hlevel, Option.some.injEq] at this
              exact ⟨rfl, this.symm⟩
          · rw [if_neg (fun h => hm h.1), if_neg (fun h => hm h.1)]
      | _ => rfl
  · next hlevel =>
      apply lastAssigned_eq_none_of_not_mem
      intro v he
      exact hlevel (h.level?_of_reaches hf he hlt)

end Aimed

/-- The frame of the bindings of a `let` binds the names in the bindings, and those that it has
started with. -/
theorem binds_of_bindAll {f g : Frame} {pairs : List Expr} {env : Environment}
    (h : (bindAll f pairs env).result = .ok g) (n : Text) :
    g.binds n = true ↔ f.binds n = true ∨ ∃ e, .list [.sym n, e] ∈ pairs := by
  induction pairs generalizing f env with
  | nil =>
      rw [bindAll] at h
      cases h
      simp
  | cons pair pairs ih =>
      by_cases hp : ∃ m e, pair = .list [.sym m, e]
      · obtain ⟨m, e, rfl⟩ := hp
        rw [bindAll] at h
        rcases bind_cases (evaluate e) (fun v => bindAll (f.put m v) pairs) env with
          ⟨fault, -, hrun⟩ | ⟨v, -, hrun⟩
        · rw [hrun] at h
          cases h
        · rw [hrun] at h
          rw [ih h, Frame.binds_put, or_assoc]
          apply or_congr_right
          constructor
          · rintro (rfl | ⟨e', he'⟩)
            · exact ⟨e, by simp⟩
            · exact ⟨e', List.mem_cons_of_mem _ he'⟩
          · rintro ⟨e', he'⟩
            rcases List.mem_cons.mp he' with heq | he'
            · simp only [Expr.list.injEq, List.cons.injEq, Expr.sym.injEq] at heq
              exact Or.inl heq.1
            · exact Or.inr ⟨e', he'⟩
      · rw [bindAll_of_not_pair f pairs hp] at h
        obtain ⟨fault, hfault⟩ := refuse_apply (α := Frame) .badBinding pair
        rw [hfault] at h
        cases h

/-- A `let` that is called in a program, where there is room for the call, leaves the scopes of the
call. -/
theorem scopes_evaluate_letIn (args : List Expr) {env : Environment}
    (h : env.depth < env.maxDepth) :
    (evaluate (.list (.sym "let" :: args)) env).env.scopes =
      (applyForm .letIn args { env with depth := env.depth + 1 }).env.scopes := by
  have hlet : Builtin.ofName? "let" = some .letIn := rfl
  obtain ⟨-, henv⟩ := evaluate_call hlet args h
  rw [henv]

/-- **A `let` protects the names that it binds.** When its bindings are evaluated, its frame `f`
binds the names in them, and `before` are the frames that stand then, the innermost first. However
its body goes on and ends, afterwards there are as many frames, at each place one of the same
names. A name that the `let` binds has the value it had in every one of them. Any other name has a
new value at most in the innermost of them that binds it: the one that the body assigned last where
no frame inside these bound the name. A `let` that is called in a program leaves the same frames. -/
theorem letIn_protects (pairs es : List Expr) (env : Environment) (f : Frame)
    (hf : (bindAll .empty pairs env).result = .ok f) :
    let found := (bindAll .empty pairs env).env
    let body := (applyForm .sequence es { found with scopes := found.scopes.push f }).events
    let before := found.scopes.frames
    let after := (applyForm .letIn (.list pairs :: es) env).env.scopes.frames
    (∀ n, f.binds n = true ↔ ∃ e, .list [.sym n, e] ∈ pairs) ∧
      after.length = before.length ∧
      (∀ i g h, before[i]? = some g → after[i]? = some h →
        h.names = g.names ∧
          (∀ n, f.binds n = true → h.get? n = g.get? n) ∧
          ∀ n, ¬ f.binds n = true →
            h.get? n =
              if before.findIdx? (·.binds n) = some i then
                (lastReaching n before.length body).or (g.get? n)
              else g.get? n) ∧
      ∀ env₀ : Environment, env₀.depth < env₀.maxDepth →
        env = { env₀ with depth := env₀.depth + 1 } →
          (evaluate (.list (.sym "let" :: .list pairs :: es)) env₀).env.scopes.frames = after := by
  intro found body before after
  obtain ⟨hrun, haimed⟩ :=
    aimedPassage.applyForm .sequence es { found with scopes := found.scopes.push f }
  have hafter : after = (within f (applyForm .sequence es) found).env.scopes.frames := by
    show (letIn (bindAll .empty pairs) (applyForm .sequence es) env).env.scopes.frames = _
    rw [letIn_eq_bind_within, bind_of_ok _ hf]
  have hupdated : Updated body before after := by
    rw [hafter]
    exact hrun.below found.scopes.nonempty
  refine ⟨fun n => ?_, hupdated.length_eq, fun i g h hg hh => ?_, fun env₀ hlt henv => ?_⟩
  · rw [binds_of_bindAll hf]
    simp [Frame.binds, Frame.names, Frame.empty]
  · obtain ⟨hnames, hget⟩ := hupdated.getElem? hg hh
    have hi : i < before.length := (List.getElem?_eq_some_iff.mp hg).1
    have hlevel : before.length - 1 - i < before.length := by omega
    refine ⟨hnames, fun n hn => ?_, fun n hn => ?_⟩
    · rw [hget, haimed.lastAssigned_of_binds hn hlevel, Option.none_or]
    · -- the place of the innermost frame that binds the name, counted from the other end
      have hplace : level? n before = some (before.length - 1 - i) ↔
          before.findIdx? (·.binds n) = some i := by
        rw [level?_eq_findIdx?]
        constructor
        · intro h
          obtain ⟨j, hj, heq⟩ := Option.map_eq_some_iff.mp h
          obtain ⟨hjlt, -⟩ := List.findIdx?_eq_some_iff_getElem.mp hj
          rw [hj, show j = i by omega]
        · intro h
          rw [h, Option.map_some]
      rw [hget, haimed.lastAssigned_of_not_binds hn hlevel, if_congr hplace rfl rfl]
      split
      · rfl
      · rw [Option.none_or]
  · rw [scopes_evaluate_letIn _ hlt, ← henv]

/-- The body assigns to the name of the `let` and to another name, and to the latter once more after
a definition of its own: outside, only the first assignment to the other name is seen. -/
theorem letIn_protects_shadowed :
    let root : Frame := .ofBindings [("x", .bool false), ("z", .bool false)]
    let pairs : List Expr := [.list [.sym "x", .bool true]]
    let es : List Expr := [.list [.sym "set", .sym "x", .nil],
      .list [.sym "set", .sym "z", .bool true], .list [.sym "def", .sym "z", .nil],
      .list [.sym "set", .sym "z", .bool false]]
    (bindAll .empty pairs (.ofRoot root 100)).result = .ok (Frame.empty.put "x" (.bool true)) ∧
      ∃ h, (applyForm .letIn (.list pairs :: es) (.ofRoot root 100)).env.scopes.frames = [h] ∧
        h.names = root.names ∧ h.get? "x" = some (.bool false) ∧
        h.get? "z" = some (.bool true) := by
  intro root pairs es
  have hbindings : (bindAll .empty pairs (.ofRoot root 100)).result =
      .ok (Frame.empty.put "x" (.bool true)) := rfl
  obtain ⟨-, hlength, hframes, -⟩ := letIn_protects pairs es (.ofRoot root 100) _ hbindings
  obtain ⟨h, hafter⟩ := List.length_eq_one_iff.mp hlength
  obtain ⟨hnames, hbound, hother⟩ := hframes 0 root h rfl (by rw [hafter]; rfl)
  refine ⟨hbindings, h, hafter, hnames, ?_, ?_⟩
  · rw [hbound "x" rfl]
    rfl
  · rw [hother "z" (by decide)]
    rfl

end MiniLisp
