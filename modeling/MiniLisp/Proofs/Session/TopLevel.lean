import MiniLisp.CommandLine.Launch
import MiniLisp.Proofs.Evaluation.Calls
import MiniLisp.Proofs.Program.Transcript

set_option autoImplicit false

/-! # Where the expressions of a session begin

A text that is run, a file that is loaded and a whole session come down to the evaluation of
expressions one after the other, each in the environment that the one before it has left
(`InTurn`). Nothing else has events or changes the environment. As every evaluation leaves the count
of the lists in progress as it finds it, all these expressions begin with the same count, which is
none at the start of the program (`depth_balanced`).
-/

namespace MiniLisp

open Eval Transcript

/-- Expressions are evaluated in turn, from one environment to another: the expressions with the
environments in which they begin, and the events of all of them. -/
inductive InTurn : Environment → List (Expr × Environment) → List Event → Environment → Prop
  | nil (env : Environment) : InTurn env [] [] env
  | cons {e : Expr} {env left : Environment} {starts : List (Expr × Environment)}
      {events : List Event} : InTurn (evaluate e env).env starts events left →
      InTurn env ((e, env) :: starts) ((evaluate e env).events ++ events) left

namespace InTurn

variable {env mid left : Environment} {starts later : List (Expr × Environment)}
  {events more : List Event}

theorem append (h : InTurn env starts events mid) (hm : InTurn mid later more left) :
    InTurn env (starts ++ later) (events ++ more) left := by
  induction h with
  | nil => exact hm
  | cons _ ih =>
      rw [List.append_assoc]
      exact .cons (ih hm)

theorem single (e : Expr) (env : Environment) :
    InTurn env [(e, env)] (evaluate e env).events (evaluate e env).env := by
  have h := InTurn.cons (.nil (evaluate e env).env)
  rwa [List.append_nil] at h

/-- **All expressions begin with the same count**, and this is the count in the end. -/
theorem depth (h : InTurn env starts events left) :
    left.depth = env.depth ∧ ∀ p ∈ starts, p.2.depth = env.depth := by
  induction h with
  | nil => exact ⟨rfl, by simp⟩
  | @cons e env left starts events _ ih =>
      obtain ⟨hleft, hstarts⟩ := ih
      rw [depth_evaluate] at hleft hstarts
      exact ⟨hleft, List.forall_mem_cons.mpr ⟨rfl, hstarts⟩⟩

end InTurn

/-- The expressions are evaluated in turn, and no list is in progress where one of them begins, nor
in the end, where what comes next begins. -/
def FromRest (es : List Expr) (env : Environment) (events : List Event) (left : Environment) :
    Prop :=
  ∃ starts, InTurn env starts events left ∧ starts.map Prod.fst = es ∧
    (∀ p ∈ starts, p.2.depth = 0) ∧ left.depth = 0

theorem InTurn.fromRest {env left : Environment} {starts : List (Expr × Environment)}
    {events : List Event} (h : InTurn env starts events left) (hrest : env.depth = 0) :
    FromRest (starts.map Prod.fst) env events left := by
  obtain ⟨hleft, hstarts⟩ := h.depth
  rw [hrest] at hleft hstarts
  exact ⟨starts, h, rfl, hstarts, hleft⟩

/-! ## Texts and files -/

/-- Expressions are evaluated in turn up to one of them, and all of them if this is `finished`. -/
def Evaluates (es : List Expr) (finished : Prop) (env : Environment) (events : List Event)
    (left : Environment) : Prop :=
  ∃ starts, InTurn env starts events left ∧ starts.map Prod.fst <+: es ∧
    (finished → starts.map Prod.fst = es)

namespace Evaluates

variable {es : List Expr} {finished : Prop} {env left : Environment} {events : List Event}

theorem nil (env : Environment) : Evaluates [] finished env [] env :=
  ⟨[], .nil env, List.prefix_refl _, fun _ => rfl⟩

/-- The first expression is the last one that is evaluated. -/
theorem stop (e : Expr) (es : List Expr) (env : Environment) (h : ¬ finished) :
    Evaluates (e :: es) finished env (evaluate e env).events (evaluate e env).env :=
  ⟨[(e, env)], .single e env, by simp, fun hfinished => absurd hfinished h⟩

theorem cons {e : Expr} (h : Evaluates es finished (evaluate e env).env events left) :
    Evaluates (e :: es) finished env ((evaluate e env).events ++ events) left := by
  obtain ⟨starts, hturn, hprefix, hall⟩ := h
  refine ⟨(e, env) :: starts, .cons hturn, ?_, fun hfinished => ?_⟩
  · rw [List.map_cons]
    exact (List.prefix_cons_inj e).mpr hprefix
  · rw [List.map_cons, hall hfinished]

theorem imp {finished' : Prop} (h : Evaluates es finished env events left)
    (himp : finished' → finished) : Evaluates es finished' env events left := by
  obtain ⟨starts, hturn, hprefix, hall⟩ := h
  exact ⟨starts, hturn, hprefix, fun h => hall (himp h)⟩

end Evaluates

/-- A run of expressions goes on to the last one, unless a value that is no expression ends it. -/
theorem evaluates_runExprs {α : Type} (view : Expr → Except Foreign α) (es : List Expr)
    (env : Environment) :
    Evaluates es ((runExprs view es env).escaped = none) env (runExprs view es env).events
      (runExprs view es env).env := by
  induction es generalizing env with
  | nil => exact .nil env
  | cons e es ih =>
      obtain ⟨henv, hevents⟩ := runExprs_singleton view e env
      rw [runExprs_cons]
      cases h : (runExprs view [e] env).escaped with
      | some k =>
          rw [followedBy_of_escaped h, hevents, henv]
          exact .stop e es env (by simp [h])
      | none =>
          rw [followedBy_of_not_escaped h, hevents, henv]
          exact (ih (evaluate e env).env).cons

theorem evaluates_runViewing {α : Type} (view : Expr → Except Foreign α) (t : Text)
    (env : Environment) :
    Evaluates (readText env.maxDepth t).exprs ((runViewing view t env).escaped = none) env
      (runViewing view t env).events (runViewing view t env).env := by
  have hrun := evaluates_runExprs view (readText env.maxDepth t).exprs env
  rw [runViewing_eq]
  cases h : (runExprs view (readText env.maxDepth t).exprs env).escaped with
  | some k => rwa [followedBy_of_escaped h]
  | none =>
      rw [followedBy_of_not_escaped h]
      -- failing to read on has no events
      simpa [refusal, h] using hrun

theorem evaluates_evaluateAll (es : List Expr) (env : Environment) :
    Evaluates es ((evaluateAll es env).result = .ok ()) env (evaluateAll es env).events
      (evaluateAll es env).env := by
  induction es generalizing env with
  | nil => exact .nil env
  | cons e es ih =>
      rw [evaluateAll]
      rcases bind_cases (evaluate e) (fun _ => evaluateAll es) env with ⟨f, -, h⟩ | ⟨v, -, h⟩
      · rw [h]
        exact .stop e es env (by simp)
      · rw [h]
        exact (ih (evaluate e env).env).cons

/-- A text is loaded by evaluating its expressions and then failing to read on, if it cannot be
read. -/
theorem evaluateText_eq (t : Text) (env : Environment) :
    evaluateText t env =
      (evaluateAll (readText env.maxDepth t).exprs >>= fun _ =>
        (readText env.maxDepth t).refused.elim (pure ()) Eval.fail) env := by
  show (evaluateAll (readText env.maxDepth t).exprs >>= _) env = _
  cases (readText env.maxDepth t).refused with
  | none => rfl
  | some c => rfl

/-- A text that is loaded is evaluated to its end, unless an expression fails. -/
theorem evaluates_evaluateText (t : Text) (env : Environment) :
    Evaluates (readText env.maxDepth t).exprs ((evaluateText t env).result = .ok ()) env
      (evaluateText t env).events (evaluateText t env).env := by
  have hsilent : ∀ (_ : Unit) (env' : Environment), ∃ x,
      ((readText env.maxDepth t).refused.elim (pure ()) Eval.fail : Eval Unit) env' =
        ⟨x, env', []⟩ := by
    intro _ env'
    cases (readText env.maxDepth t).refused with
    | none => exact ⟨_, rfl⟩
    | some c => exact ⟨_, rfl⟩
  obtain ⟨hevents, henv, hok⟩ :=
    bind_of_silent (m := evaluateAll (readText env.maxDepth t).exprs) hsilent env
  rw [evaluateText_eq, hevents, henv]
  refine (evaluates_evaluateAll (readText env.maxDepth t).exprs env).imp (fun h => ?_)
  obtain ⟨_, hall⟩ := hok () h
  exact hall

theorem evaluates_loadFile {d : Disk} {name t : Text} (ht : d.readText name = .ok t)
    (env : Environment) :
    Evaluates (readText env.maxDepth t).exprs ((loadFile d name env).result = .ok ()) env
      (loadFile d name env).events (loadFile d name env).env := by
  rw [loadFile, ht]
  refine (evaluates_evaluateText t env).imp (fun hok => ?_)
  dsimp only at hok
  cases hresult : (evaluateText t env).result with
  | error f =>
      rw [hresult] at hok
      cases hok
  | ok u => rfl

theorem inTurn_loadFile (d : Disk) (name : Text) (env : Environment) :
    ∃ starts, InTurn env starts (loadFile d name env).events (loadFile d name env).env := by
  cases h : d.readText name with
  | error p =>
      rw [loadFile, h]
      exact ⟨[], .nil env⟩
  | ok t =>
      obtain ⟨starts, hturn, -⟩ := evaluates_loadFile h env
      exact ⟨starts, hturn⟩

theorem inTurn_loadFiles (d : Disk) (names : List Text) (env : Environment) :
    ∃ starts, InTurn env starts (loadFiles d names env).events (loadFiles d names env).env := by
  induction names generalizing env with
  | nil => exact ⟨[], .nil env⟩
  | cons name names ih =>
      obtain ⟨first, hfirst⟩ := inTurn_loadFile d name env
      rw [loadFiles]
      cases (loadFile d name env).result with
      | error t => exact ⟨first, hfirst⟩
      | ok u =>
          obtain ⟨others, hothers⟩ := ih (loadFile d name env).env
          exact ⟨first ++ others, hfirst.append hothers⟩

/-! ## Sessions -/

namespace Session

/-- Taking a line in evaluates nothing. -/
theorem takeLine_silent (s : Session) (request : Terminal.Request) :
    (s.takeLine request).session.env = s.env ∧ (s.takeLine request).events = [] := by
  cases request with
  | error p => exact ⟨rfl, rfl⟩
  | ok line =>
      refine ⟨?_, rfl⟩
      show (s.enter (Text.strip line)).session.env = s.env
      unfold enter
      split
      · rfl
      · split
        · rfl
        · -- saving changes the history and the files
          dsimp only [storeHistory]
          cases (s.history.add (Text.strip line)).store s.disk with
          | error p => rfl
          | ok stored => rfl

theorem inTurn_answer (s : Session) (line : Text) :
    ∃ starts, InTurn s.env starts (s.answer line).events (s.answer line).session.env := by
  unfold answer
  split
  · -- a command evaluates nothing
    cases Command.ofName line.tail with
    | _ => exact ⟨[], .nil s.env⟩
  · split
    · exact ⟨[], .nil s.env⟩
    · obtain ⟨starts, h, -⟩ := evaluates_runViewing viewShown line s.env
      exact ⟨starts, h⟩

theorem inTurn_respond (s : Session) (request : Terminal.Request) :
    ∃ starts, InTurn s.env starts (s.respond request).events (s.respond request).session.env := by
  obtain ⟨henv, hevents⟩ := s.takeLine_silent request
  dsimp only [respond]
  cases (s.takeLine request).result with
  | error e =>
      refine ⟨[], ?_⟩
      dsimp only
      rw [henv, hevents]
      exact .nil s.env
  | ok line =>
      obtain ⟨starts, h⟩ := (s.takeLine request).session.inTurn_answer line
      refine ⟨starts, ?_⟩
      dsimp only
      rwa [hevents, List.nil_append, ← henv]

theorem inTurn_loop (requests : List Terminal.Request) (s : Session) :
    ∃ starts, InTurn s.env starts (loop requests s).events (loop requests s).session.env := by
  induction requests generalizing s with
  | nil => exact ⟨[], .nil s.env⟩
  | cons request requests ih =>
      obtain ⟨first, hfirst⟩ := s.inTurn_respond request
      obtain ⟨others, hothers⟩ := ih (s.respond request).session
      rw [loop]
      -- the loop ends with this request, or goes on with the session that it has left
      cases (s.respond request).goesOn? with
      | none => exact ⟨first, hfirst⟩
      | some reported => exact ⟨first ++ others, hfirst.append hothers⟩

theorem inTurn_interact {s : Session} {requests : List Terminal.Request} {t : Dialogue}
    (h : s.interact requests = .ok t) : ∃ starts, InTurn s.env starts t.events t.session.env := by
  unfold interact restoreHistory at h
  cases hrestore : s.history.restore s.disk with
  | error p =>
      rw [hrestore] at h
      cases h
  | ok history =>
      rw [hrestore] at h
      cases h
      exact inTurn_loop requests { s with history }

end Session

/-! ## The count -/

/-- **The count of the lists in progress is balanced and bounded.** Every evaluation, with a value
or not, leaves the count and the limit as it finds them. If the count is not above the limit at the
beginning, it is at no moment of the evaluation, neither where a task begins nor where it ends, and
no list is entered above the limit. So if no list is in progress before a text is run, a file is
loaded or a session begins, none is at the start of any of their expressions, nor afterwards. The
program starts with none. -/
theorem depth_balanced :
    (∀ (e : Expr) (env : Environment),
      (evaluate e env).env.depth = env.depth ∧ (evaluate e env).env.maxDepth = env.maxDepth) ∧
    (∀ (e : Expr) (env : Environment), env.depth ≤ env.maxDepth →
      (∀ q, Reaches ⟨.expression e, env⟩ q →
        q.env.depth ≤ env.maxDepth ∧ q.left.depth ≤ env.maxDepth ∧
          q.env.maxDepth = env.maxDepth ∧ q.left.maxDepth = env.maxDepth) ∧
      ∀ d, .entered d ∈ (evaluate e env).events → d ≤ env.maxDepth) ∧
    (∀ (α : Type) (view : Expr → Except Foreign α) (t : Text) (env : Environment), env.depth = 0 →
      ∃ es, FromRest es env (runViewing view t env).events (runViewing view t env).env ∧
        es <+: (readText env.maxDepth t).exprs ∧
        ((runViewing view t env).escaped = none → es = (readText env.maxDepth t).exprs)) ∧
    (∀ (d : Disk) (name t : Text) (env : Environment), env.depth = 0 → d.readText name = .ok t →
      ∃ es, FromRest es env (loadFile d name env).events (loadFile d name env).env ∧
        es <+: (readText env.maxDepth t).exprs ∧
        ((loadFile d name env).result = .ok () → es = (readText env.maxDepth t).exprs)) ∧
    (∀ (s : Session) (requests : List Terminal.Request) (t : Dialogue), s.env.depth = 0 →
      s.interact requests = .ok t → ∃ es, FromRest es s.env t.events t.session.env) ∧
    ∀ (o : Options) (requests : List Terminal.Request) (d : Disk),
      let loaded := loadFiles d o.files Launch.freshEnvironment
      (∃ es, FromRest es Launch.freshEnvironment loaded.events loaded.env) ∧
        ∀ t, (Session.ofEnvironment loaded.env o.history d).interact requests = .ok t →
          ∃ es, FromRest es loaded.env t.events t.session.env := by
  refine ⟨fun e env => ⟨depth_evaluate e env, maxDepth_evaluate e env⟩,
    fun e env hle => ⟨fun q hq => ?_, fun d hd => depth_le_of_entered hd hle⟩,
    fun α view t env hrest => ?_, fun d name t env hrest ht => ?_,
    fun s requests t hrest h => ?_,
    fun o requests d => ?_⟩
  · have hmax : q.env.maxDepth = env.maxDepth := hq.maxDepth
    have hdepth : q.env.depth ≤ env.maxDepth := hmax ▸ hq.depth_le hle
    obtain ⟨hleft, hlimit⟩ := q.balanced
    exact ⟨hdepth, hleft ▸ hdepth, hmax, hlimit.trans hmax⟩
  · obtain ⟨starts, h, hprefix, hall⟩ := evaluates_runViewing view t env
    exact ⟨_, h.fromRest hrest, hprefix, hall⟩
  · obtain ⟨starts, h, hprefix, hall⟩ := evaluates_loadFile ht env
    exact ⟨_, h.fromRest hrest, hprefix, hall⟩
  · obtain ⟨starts, h⟩ := Session.inTurn_interact h
    exact ⟨_, h.fromRest hrest⟩
  · intro loaded
    obtain ⟨first, hfirst⟩ := inTurn_loadFiles d o.files Launch.freshEnvironment
    refine ⟨⟨_, hfirst.fromRest rfl⟩, fun t ht => ?_⟩
    obtain ⟨starts, h⟩ := Session.inTurn_interact ht
    exact ⟨_, h.fromRest hfirst.depth.1⟩

/-- Two lists in one another, where two may be in progress: the limit is reached and not passed. The
same text is a file that is loaded, and a line of a session. -/
theorem depth_balanced_at_limit :
    let t : Text := "(eval (+))"
    let e : Expr := .list [.sym "eval", .list [.sym "+"]]
    let env : Environment := .ofRoot .empty 2
    let d : Disk := ⟨[(⟨.above 0, ["f"]⟩, .file (.ofText t))]⟩
    (env.depth = 0 ∧ env.depth ≤ env.maxDepth) ∧
      (∃ q, Reaches ⟨.expression e, env⟩ q ∧ q.env.depth = 2 ∧ q.left.depth ≤ 2) ∧
      (∀ x, .entered x ∈ (evaluate e env).events → x ≤ 2) ∧
      (∃ es, FromRest es env (runText t env).events (runText t env).env) ∧
      (∃ es, FromRest es env (loadFile d "f" env).events (loadFile d "f" env).env) ∧
      ∃ u, (Session.ofEnvironment env "h" d).interact [.ok t] = .ok u ∧
        ∃ es, FromRest es env u.events u.session.env := by
  intro t e env d
  obtain ⟨-, hbounded, hrun, hload, hsession, -⟩ := depth_balanced
  obtain ⟨hmoments, hentered⟩ := hbounded e env (by decide)
  have hq : Reaches ⟨.expression e, env⟩ ⟨.form .add [], { env with depth := 2 }⟩ :=
    .tail (.tail (.single (.call rfl (by decide))) .first) (.call rfl (by decide))
  obtain ⟨-, hleft, -⟩ := hmoments _ hq
  obtain ⟨es, hes, -⟩ := hrun Expr .ok t env rfl
  have hread : d.readText "f" = .ok t := by decide
  obtain ⟨fs, hfs, -⟩ := hload d "f" t env rfl hread
  obtain ⟨u, hu⟩ : ∃ u, (Session.ofEnvironment env "h" d).interact [.ok t] = .ok u := ⟨_, rfl⟩
  exact ⟨⟨rfl, by decide⟩, ⟨_, hq, rfl, hleft⟩, hentered, ⟨es, hes⟩, ⟨fs, hfs⟩, u, hu,
    hsession _ _ u rfl hu⟩

end MiniLisp
