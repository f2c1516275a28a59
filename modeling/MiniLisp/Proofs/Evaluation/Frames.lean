import MiniLisp.Proofs.Evaluation.Completed
import MiniLisp.Proofs.Evaluation.Passage
import MiniLisp.Proofs.Scope.Stack

set_option autoImplicit false

/-! # The frames that an evaluation leaves

An evaluation neither removes a frame that it finds nor changes which names it binds. It only
changes values, those that it assigns (`Updated`), and stacks new frames on top, one with a single
name for each definition that lasts (`StackRun`). A `let` takes off again what its body has
stacked, so that of its own frames only those of definitions among its bindings are left.
-/

namespace MiniLisp

open Event Eval

/-! ## Frames with assigned values -/

/-- The frames `gs` are the frames `fs` after a course of events: every frame binds the same names
in the same order, and a name has the value that was assigned to it last in its frame, or else the
one it had. A frame is told by its level, the number of frames outside it. -/
inductive Updated (events : List Event) : List Frame → List Frame → Prop
  | nil : Updated events [] []
  | cons {f g : Frame} {fs gs : List Frame} : g.names = f.names →
      (∀ n, g.get? n = (lastAssigned n fs.length events).or (f.get? n)) →
      Updated events fs gs → Updated events (f :: fs) (g :: gs)

namespace Updated

variable {events more : List Event} {fs gs hs : List Frame}

theorem length_eq (h : Updated events fs gs) : gs.length = fs.length := by
  induction h with
  | nil => rfl
  | cons _ _ _ ih => rw [List.length_cons, List.length_cons, ih]

theorem refl_of_lastAssigned (fs : List Frame)
    (h : ∀ n level, level < fs.length → lastAssigned n level events = none) :
    Updated events fs fs := by
  induction fs with
  | nil => exact .nil
  | cons f fs ih =>
      refine .cons rfl (fun n => ?_) (ih (fun n level hl => h n level ?_))
      · rw [h n fs.length (by simp), Option.none_or]
      · rw [List.length_cons]
        omega

theorem of_lastAssigned (h : Updated events fs gs)
    (hl : ∀ n level, lastAssigned n level more = lastAssigned n level events) :
    Updated more fs gs := by
  induction h with
  | nil => exact .nil
  | cons hnames hget _ ih => exact .cons hnames (fun n => by rw [hl, hget]) ih

theorem trans (h : Updated events fs gs) (hm : Updated more gs hs) :
    Updated (events ++ more) fs hs := by
  induction h generalizing hs with
  | nil => cases hm; exact .nil
  | cons hnames hget ht ih =>
      cases hm with
      | cons hnames' hget' ht' =>
          refine .cons (hnames'.trans hnames) (fun n => ?_) (ih ht')
          rw [hget', hget, ht.length_eq, lastAssigned_append, Option.or_assoc]

/-- What becomes of frames on top of others, and of those others. -/
theorem of_append {above : List Frame} (h : Updated events (above ++ fs) gs) :
    ∃ above' gs', gs = above' ++ gs' ∧ above'.map Frame.names = above.map Frame.names ∧
      Updated events fs gs' := by
  induction above generalizing gs with
  | nil => exact ⟨[], gs, rfl, rfl, h⟩
  | cons f above ih =>
      cases h with
      | @cons _ g _ gs hnames _ ht =>
          obtain ⟨above', gs', rfl, hmap, hu⟩ := ih ht
          exact ⟨g :: above', gs', rfl, by simp [hnames, hmap], hu⟩

/-- An assignment changes the innermost frame that binds the name. -/
theorem assigned {n : Text} {level : Nat} (v : Expr) (h : Scopes.level? n fs = some level) :
    Updated [.assigned n v level] fs (Scopes.putInnermost n v fs) := by
  have hlast : ∀ m l, lastAssigned m l [.assigned n v level] =
      if n = m ∧ level = l then some v else none := by
    intro m l
    rw [lastAssigned, List.filterMap_cons, assigns?]
    split <;> simp_all
  induction fs with
  | nil => cases h
  | cons f fs ih =>
      rw [Scopes.level?] at h
      rw [Scopes.putInnermost]
      split at h
      · next hb =>
          cases h
          rw [if_pos hb]
          refine .cons (Frame.names_put_of_binds v hb) (fun m => ?_) ?_
          · rw [Frame.get?_put, hlast]
            by_cases hm : m = n
            · simp [hm]
            · rw [if_neg hm, if_neg (fun h => hm h.1.symm), Option.none_or]
          · refine refl_of_lastAssigned fs (fun m l hl => ?_)
            rw [hlast, if_neg (by omega)]
      · next hb =>
          have hlt := Scopes.level?_lt h
          rw [if_neg hb]
          refine .cons rfl (fun m => ?_) (ih h)
          rw [hlast, if_neg (by omega), Option.none_or]

/-- New values do not change which frame is the innermost one of a name. -/
theorem level?_eq (h : Updated events fs gs) (n : Text) :
    Scopes.level? n gs = Scopes.level? n fs := by
  induction h with
  | nil => rfl
  | @cons f g fs gs hnames _ ht ih =>
      have hbinds : g.binds n = f.binds n := by
        rw [Frame.binds, Frame.binds, hnames]
      rw [Scopes.level?, Scopes.level?, hbinds, ht.length_eq, ih]

/-- The frame at a place, before and after a course of events. -/
theorem getElem? (h : Updated events fs gs) {i : ℕ} {f g : Frame} (hf : fs[i]? = some f)
    (hg : gs[i]? = some g) :
    g.names = f.names ∧
      ∀ n, g.get? n = (lastAssigned n (fs.length - 1 - i) events).or (f.get? n) := by
  induction h generalizing i with
  | nil => simp at hf
  | @cons f' g' fs gs hnames hget _ ih =>
      cases i with
      | zero =>
          simp only [List.getElem?_cons_zero, Option.some.injEq] at hf hg
          subst hf hg
          exact ⟨hnames, by simpa using hget⟩
      | succ i =>
          rw [List.getElem?_cons_succ] at hf hg
          have hlevel : (f' :: fs).length - 1 - (i + 1) = fs.length - 1 - i := by
            rw [List.length_cons]
            omega
          rw [hlevel]
          exact ih hf hg

end Updated

/-! ## Stacks before and after a course of events -/

/-- The stack `gs` is left of the stack `fs` by a course of events: on top of the frames that were
there, with assigned values, is a frame of a single name for every definition that lasts. -/
structure StackRun (events : List Event) (fs gs : List Frame) : Prop where
  nested : Nested events
  split : ∃ pushed kept, gs = pushed ++ kept ∧ Updated events fs kept ∧
    (∀ f ∈ pushed, f.names.length = 1) ∧ pushed.length = lasting events

namespace StackRun

variable {events more : List Event} {fs gs hs : List Frame}

theorem of_isQuiet (h : ∀ e ∈ events, e.isQuiet = true) (fs : List Frame) :
    StackRun events fs fs where
  nested := nested_of_isQuiet h
  split := ⟨[], fs, rfl,
    Updated.refl_of_lastAssigned fs (fun n level _ => lastAssigned_of_isQuiet h n level),
    by simp, (lasting_of_isQuiet h).symm⟩

theorem trans (h : StackRun events fs gs) (hm : StackRun more gs hs) :
    StackRun (events ++ more) fs hs := by
  obtain ⟨pushed, kept, rfl, hkept, hone, hlen⟩ := h.split
  obtain ⟨pushed', kept', rfl, hkept', hone', hlen'⟩ := hm.split
  obtain ⟨above, kept'', rfl, hnames, hu⟩ := hkept'.of_append
  refine ⟨h.nested.append hm.nested, pushed' ++ above, kept'', by simp, hkept.trans hu, ?_, ?_⟩
  · intro f hf
    rcases List.mem_append.mp hf with hf | hf
    · exact hone' f hf
    · -- a frame pushed earlier may have a new value by now, but not a new name
      have : f.names ∈ pushed.map Frame.names := hnames ▸ List.mem_map_of_mem hf
      obtain ⟨g, hg, hgf⟩ := List.mem_map.mp this
      rw [← hgf]
      exact hone g hg
  · have habove : above.length = pushed.length := by
      simpa using congrArg List.length hnames
    rw [List.length_append, lasting_append h.nested, hlen', habove, hlen, Nat.add_comm]

theorem length_eq (h : StackRun events fs gs) : gs.length = fs.length + lasting events := by
  obtain ⟨pushed, kept, rfl, hkept, -, hlen⟩ := h.split
  rw [List.length_append, hkept.length_eq, hlen, Nat.add_comm]

theorem assigned {n : Text} {level : Nat} (v : Expr) (h : Scopes.level? n fs = some level) :
    StackRun [.assigned n v level] fs (Scopes.putInnermost n v fs) :=
  ⟨.cons rfl .nil, [], _, rfl, Updated.assigned v h, by simp, rfl⟩

theorem declared (n : Text) (v : Expr) (k : Nat) (fs : List Frame) :
    StackRun [.pushed (Frame.empty.put n v).names k, .defined n] fs
      (Frame.empty.put n v :: fs) := by
  refine ⟨.cons rfl (.cons rfl .nil), [Frame.empty.put n v], fs, rfl, ?_, ?_, rfl⟩
  · exact Updated.refl_of_lastAssigned fs (fun m level _ => rfl)
  · intro f hf
    rw [List.mem_singleton.mp hf, Frame.names_put]
    rfl

/-- Of a stack that is cut back to the frames below its innermost one, these frames are left, with
assigned values. -/
theorem below {f : Frame} (h : StackRun events (f :: fs) gs) (hfs : fs ≠ []) :
    Updated events fs (Scopes.outermost fs.length gs) := by
  obtain ⟨pushed, kept, rfl, hkept, -, -⟩ := h.split
  cases hkept with
  | @cons _ g _ kept _ _ hu =>
      have hne : kept ≠ [] := by
        rw [← List.length_pos_iff, hu.length_eq]
        exact List.length_pos_iff.mpr hfs
      have hcut : Scopes.outermost fs.length (pushed ++ g :: kept) = kept := by
        rw [← hu.length_eq, List.append_cons]
        exact Scopes.outermost_append (pushed ++ [g]) hne
      rwa [hcut]

/-- The body of a `let` leaves the frames around it, with assigned values: the frame of the
bindings and all that the body has stacked on it are taken off. -/
theorem body {f : Frame} {k size : Nat} (h : StackRun events (f :: fs) gs) (hfs : fs ≠ []) :
    StackRun (.pushed f.names k ::
        (.bodyEntered :: (events ++ .bodyLeft :: popEvents fs.length size)))
      fs (Scopes.outermost fs.length gs) := by
  have hpops : ∀ e ∈ popEvents fs.length size, e.isQuiet = true :=
    fun e he => isQuiet_of_mem_popEvents he
  refine ⟨.cons rfl (.body h.nested (nested_of_isQuiet hpops)), [], _, rfl, ?_, by simp, ?_⟩
  · refine (h.below hfs).of_lastAssigned (fun n level => ?_)
    show lastAssigned n level
      ([.pushed f.names k, .bodyEntered] ++
        (events ++ ([.bodyLeft] ++ popEvents fs.length size))) = _
    have hbefore : lastAssigned n level [.pushed f.names k, .bodyEntered] = none := rfl
    have hafter : lastAssigned n level [.bodyLeft] = none := rfl
    rw [lastAssigned_append, lastAssigned_append, lastAssigned_append,
      lastAssigned_of_isQuiet hpops, hbefore, hafter, Option.none_or, Option.none_or,
      Option.or_none]
  · exact (lasting_within h.nested f.names k fs.length size).symm

end StackRun

/-! ## Every evaluation -/

/-- What the steps do to the stack. -/
def stackPassage : Passage where
  rel env events left := StackRun events env.scopes.frames left.scopes.frames
  quiet h := .of_isQuiet h _
  trans := StackRun.trans
  assigned v h := .assigned v h
  declared env n v := .declared n v (env.scopes.size + 1) env.scopes.frames
  within {env} _ _ h := h.body env.scopes.nonempty
  counted {env _ _} _ h := by
    have hentered : StackRun [.entered (env.depth + 1)] env.scopes.frames env.scopes.frames :=
      .of_isQuiet (by simp [isQuiet]) _
    exact hentered.trans h

/-- **The frames after an evaluation**, whether it gives a value or fails. On the frames that were
there, which bind the same names in the same order and have the values that were assigned to them,
there is a frame of a single name for every call of `def` that gave its value outside the bodies of
the `let`s. Every definition and every assignment among the events is the last step of such a call,
of `def` or of `set`, which gives its value next; and every such call has one. -/
theorem frames_evaluate (e : Expr) (env : Environment) :
    Answered (evaluate e env).events ∧
      ∃ pushed kept, (evaluate e env).env.scopes.frames = pushed ++ kept ∧
        Updated (evaluate e env).events env.scopes.frames kept ∧
        (∀ f ∈ pushed, f.names.length = 1) ∧
        pushed.length = completed .define (evaluate e env).events := by
  have hanswered : Answered (evaluate e env).events := answers_evaluate e env
  obtain ⟨pushed, kept, hframes, hkept, hone, hlength⟩ := (stackPassage.evaluate e env).split
  refine ⟨hanswered, pushed, kept, hframes, hkept, hone, ?_⟩
  rw [hlength, lasting_eq_completed hanswered]

/-- A definition in the value of a binding lasts, one in a body does not, and one whose value fails
is none. What the body assigns to a name outside stays when the last expression fails. -/
theorem frames_evaluate_nested :
    let e : Expr := .list [.sym "eval", .list [.sym "def", .sym "a", .bool true],
      .list [.sym "let", .list [.list [.sym "x", .list [.sym "def", .sym "b", .nil]]],
        .list [.sym "def", .sym "c", .sym "x"], .list [.sym "set", .sym "z", .sym "a"]],
      .list [.sym "def", .sym "d", .list [.sym "set", .sym "y", .bool true]]]
    let env : Environment := .ofRoot (.ofBindings [("z", .bool false)]) 100
    let run := evaluate e env
    run.result = .error (.failure
        ⟨.unassignable "y", [.inForm .assign, .inForm .define, .inForm .sequence]⟩) ∧
      run.env.scopes.frames =
        [.ofBindings [("b", .nil)], .ofBindings [("a", .bool true)],
          .ofBindings [("z", .bool true)]] ∧
      completed .define run.events = 2 ∧
      ∃ pushed kept, run.env.scopes.frames = pushed ++ kept ∧
        Updated run.events env.scopes.frames kept ∧ (∀ f ∈ pushed, f.names.length = 1) ∧
        pushed.length = completed .define run.events :=
  ⟨rfl, rfl, rfl, (frames_evaluate _ _).2⟩

/-! ## The frames that a `let` leaves -/

theorem size_within {m : Eval Expr} (hm : stackPassage.Holds (fun _ => True) m) (f : Frame)
    (env : Environment) : (within f m env).env.scopes.size = env.scopes.size := by
  have hbody := (hm { env with scopes := env.scopes.push f }).1
  have hrun := (hm.within f env).1
  rw [Scopes.size, hrun.length_eq, within_apply, lasting_within hbody.nested]
  rfl

/-- The events of evaluating the bindings of a `let` that is called with these arguments. -/
def bindingEvents : List Expr → Environment → List Event
  | .list pairs :: _, env => (bindAll .empty pairs env).events
  | _, _ => []

/-- **A `let` leaves a frame for every definition among its bindings** that takes place outside
the bodies of inner `let`s, however the call ends. So it leaves as many frames as it found if and
only if there is no such definition; those in its own body do not count. -/
theorem size_applyForm_letIn (args : List Expr) (env : Environment) :
    (applyForm .letIn args env).env.scopes.size =
        env.scopes.size + lasting (bindingEvents args env) ∧
      ((applyForm .letIn args env).env.scopes.size = env.scopes.size ↔
        lasting (bindingEvents args env) = 0) := by
  suffices h : (applyForm .letIn args env).env.scopes.size =
      env.scopes.size + lasting (bindingEvents args env) from ⟨h, by omega⟩
  match args with
  | [] => rfl
  | .list pairs :: es =>
      have hpairs : (bindAll .empty pairs env).env.scopes.size =
          env.scopes.size + lasting (bindAll .empty pairs env).events :=
        (stackPassage.bindAll .empty pairs env).length_eq
      show (letIn (bindAll .empty pairs) (applyForm .sequence es) env).env.scopes.size = _
      rw [letIn_eq_bind_within]
      rcases bind_cases (bindAll .empty pairs) (fun f => within f (applyForm .sequence es)) env
        with ⟨f, -, h⟩ | ⟨f, -, h⟩
      · rw [h]
        exact hpairs
      · rw [h]
        exact (size_within (stackPassage.holds_applyForm .sequence es) f _).trans hpairs
  | .bool _ :: _ => rfl
  | .num _ :: _ => rfl
  | .str _ :: _ => rfl
  | .sym _ :: _ => rfl
  | .foreign _ :: _ => rfl

theorem letIn_not_neutral :
    ¬ ∀ (args : List Expr) (env : Environment),
      (applyForm .letIn args env).env.scopes.size = env.scopes.size := by
  intro h
  have := h [.list [.list [.sym "x", .list [.sym "def", .sym "y", .bool true]]], .sym "x"]
    (.ofRoot .empty 100)
  exact absurd this (by decide)

end MiniLisp
