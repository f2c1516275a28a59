import MiniLisp.Proofs.Evaluation.Step
import MiniLisp.Proofs.Scope.Stack

set_option autoImplicit false

/-! # Working on an environment

An environment is worked on by getting and setting names and by pushing and popping frames. What
each of these does to the frames is a function of the frames (`Access.after`), and does not depend
on whether it fails.

While a frame stands, it keeps assignments to its names away from the frames that were there before
it: an assignment goes to the innermost frame that binds the name, which is the frame itself or one
further in (`Standing`). So when it is popped, its names have the values they had (`Shielded`).
-/

namespace MiniLisp

open Eval Scopes

/-- What is done with an environment. -/
inductive Access where
  | get (n : Text)
  | set (n : Text) (v : Expr)
  | push (f : Frame)
  | pop

namespace Access

/-- Does it. What is got is not kept. -/
def perform : Access → Eval Unit
  | .get n => do
      let _ ← lookup n
  | .set n v => assign n v
  | .push f => Eval.push f
  | .pop => Eval.pop

/-- The environment after one thing is done after the other, whether it fails or not. -/
def performAll (as : List Access) (env : Environment) : Environment :=
  as.foldl (fun env a => (a.perform env).env) env

/-- What is done to the frames. -/
def after : Access → List Frame → List Frame
  | .get _, fs => fs
  | .set n v, fs => putInnermost n v fs
  | .push f, fs => f :: fs
  | .pop, _ :: g :: fs => g :: fs
  | .pop, fs => fs

/-! ## Success and failure -/

/-- A name is looked up with success if it has a value. -/
theorem lookup_ok_iff (n : Text) (v : Expr) (env : Environment) :
    (lookup n env).result = .ok v ↔ env.scopes.get? n = some v := by
  rw [lookup_apply]
  cases env.scopes.get? n <;> simp

theorem mem_names_iff (s : Scopes) (n : Text) : n ∈ s.names ↔ s.get? n ≠ none := by
  rw [mem_names_iff_binds, get?_eq_valueIn, Ne, valueIn, List.findSome?_eq_none_iff]
  simp only [Frame.get?_eq_none_iff, not_forall, Bool.not_eq_false, exists_prop]

theorem assign_ok_iff (n : Text) (v : Expr) (env : Environment) :
    (assign n v env).result = .ok () ↔ env.scopes.get? n ≠ none := by
  rw [get?_eq_valueIn, Ne, ← level?_eq_none_iff]
  rcases assign_cases n v env with ⟨hl, h⟩ | ⟨level, hl, h⟩
  · simp [h, hl]
  · simp [h, hl]

theorem pop_cases (env : Environment) :
    (env.scopes.size = 1 ∧ Eval.pop env = ⟨.error (.ofCause .rootPop), env, []⟩) ∨
      ∃ f g fs, env.scopes.frames = f :: g :: fs ∧ (Eval.pop env).result = .ok () ∧
        (Eval.pop env).env.scopes.frames = g :: fs := by
  obtain ⟨⟨frames, hne⟩, depth, maxDepth⟩ := env
  match frames, hne with
  | [f], _ => exact Or.inl ⟨rfl, rfl⟩
  | f :: g :: fs, _ => exact Or.inr ⟨f, g, fs, rfl, rfl, rfl⟩

theorem pop_error_iff (env : Environment) :
    (∃ f, (Eval.pop env).result = .error f) ↔ env.scopes.size = 1 := by
  rcases pop_cases env with ⟨hsize, h⟩ | ⟨f, g, fs, hframes, hok, -⟩
  · simp [h, hsize]
  · simp [hok, size, hframes]

theorem env_perform_get (n : Text) (env : Environment) : (perform (.get n) env).env = env := by
  show ((lookup n >>= fun _ => pure ()) env).env = env
  obtain ⟨-, henv, -⟩ := bind_of_silent (m := lookup n) (k := fun _ => pure ())
    (fun _ _ => ⟨.ok (), rfl⟩) env
  rw [henv, lookup_apply]

/-- **What fails changes nothing.** -/
theorem env_perform_of_error {a : Access} {env : Environment} {fault : Fault}
    (h : (a.perform env).result = .error fault) : (a.perform env).env = env := by
  cases a with
  | get n => exact env_perform_get n env
  | set n v =>
      change (assign n v env).result = _ at h
      show (assign n v env).env = env
      rcases assign_cases n v env with ⟨-, hrun⟩ | ⟨level, -, hrun⟩
      · rw [hrun]
      · rw [hrun] at h
        contradiction
  | push f => contradiction
  | pop =>
      change (Eval.pop env).result = _ at h
      show (Eval.pop env).env = env
      rcases pop_cases env with ⟨-, hrun⟩ | ⟨f, g, fs, -, hok, -⟩
      · rw [hrun]
      · rw [hok] at h
        contradiction

/-! ## The frames -/

theorem frames_perform (a : Access) (env : Environment) :
    (a.perform env).env.scopes.frames = a.after env.scopes.frames := by
  cases a with
  | get n => rw [env_perform_get, after]
  | set n v =>
      show (assign n v env).env.scopes.frames = putInnermost n v env.scopes.frames
      rcases assign_cases n v env with ⟨hl, hrun⟩ | ⟨level, -, hrun⟩
      · rw [hrun, putInnermost_of_unbound ((level?_eq_none_iff n _).mp hl)]
      · rw [hrun]
        rfl
  | push f => rfl
  | pop =>
      obtain ⟨⟨frames, hne⟩, depth, maxDepth⟩ := env
      match frames, hne with
      | [f], _ => rfl
      | f :: g :: fs, _ => rfl

theorem performAll_append (as bs : List Access) (env : Environment) :
    performAll (as ++ bs) env = performAll bs (performAll as env) := List.foldl_append

theorem after_pop_cons (f : Frame) {fs : List Frame} (h : fs ≠ []) : after .pop (f :: fs) = fs := by
  obtain ⟨g, gs, rfl⟩ := List.exists_cons_of_ne_nil h
  rfl

/-! ## The root -/

/-- The outermost frame keeps its place and its names. -/
theorem getLast?_after (a : Access) {fs : List Frame} (h : fs ≠ []) :
    ((a.after fs).map Frame.names).getLast? = (fs.map Frame.names).getLast? := by
  cases a with
  | get n => rfl
  | set n v => rw [after, map_names_putInnermost]
  | push f =>
      obtain ⟨g, gs, rfl⟩ := List.exists_cons_of_ne_nil h
      rfl
  | pop =>
      match fs with
      | [f] => rfl
      | f :: g :: fs => rfl

/-- **The root stays**, whatever is done. -/
theorem getLast?_performAll (as : List Access) (env : Environment) :
    ((performAll as env).scopes.frames.map Frame.names).getLast? =
      (env.scopes.frames.map Frame.names).getLast? := by
  induction as generalizing env with
  | nil => rfl
  | cons a as ih =>
      show ((performAll as (a.perform env).env).scopes.frames.map Frame.names).getLast? = _
      rw [ih, frames_perform, getLast?_after a env.scopes.nonempty]

end Access

/-! ## Under a frame -/

/-- Frames of the same names, in which the names of a class have the values they had. -/
def Shielded (S : Text → Prop) (fs gs : List Frame) : Prop :=
  List.Forall₂ (fun f g => g.names = f.names ∧ ∀ n, S n → g.get? n = f.get? n) fs gs

namespace Shielded

variable {S : Text → Prop} {fs gs : List Frame}

theorem refl (S : Text → Prop) (fs : List Frame) : Shielded S fs fs :=
  List.forall₂_same.mpr (fun _ _ => ⟨rfl, fun _ _ => rfl⟩)

/-- An assignment to another name leaves the names of the class alone. -/
theorem putInnermost {n : Text} (h : Shielded S fs gs) (hn : ¬ S n) (v : Expr) :
    Shielded S fs (putInnermost n v gs) := by
  induction h with
  | nil => exact .nil
  | @cons f g fs gs hfg ht ih =>
      obtain ⟨hnames, hget⟩ := hfg
      rw [Scopes.putInnermost]
      by_cases hg : g.binds n = true
      · rw [if_pos hg]
        refine .cons ⟨(Frame.names_put_of_binds v hg).trans hnames, fun m hm => ?_⟩ ht
        have hne : m ≠ n := fun hmn => hn (hmn ▸ hm)
        rw [Frame.get?_put, if_neg hne, hget m hm]
      · rw [if_neg hg]
        exact .cons ⟨hnames, hget⟩ ih

theorem valueIn_eq (h : Shielded S fs gs) {n : Text} (hn : S n) :
    valueIn n gs = valueIn n fs := by
  induction h with
  | nil => rfl
  | cons hfg _ ih => rw [valueIn_cons, valueIn_cons, hfg.2 n hn, ih]

end Shielded

/-- A frame stands on the frames that were there before it, in which its names have the values they
had. -/
def Standing (b : Frame) (before fs : List Frame) : Prop :=
  ∃ inner g kept, fs = inner ++ g :: kept ∧ g.names = b.names ∧
    Shielded (b.binds · = true) before kept

namespace Standing

variable {b : Frame} {before fs : List Frame}

theorem pushed (b : Frame) (fs : List Frame) : Standing b fs (b :: fs) :=
  ⟨[], b, fs, rfl, rfl, .refl _ fs⟩

theorem set (h : Standing b before fs) (n : Text) (v : Expr) :
    Standing b before (putInnermost n v fs) := by
  obtain ⟨inner, g, kept, rfl, hnames, hkept⟩ := h
  by_cases hinner : valueIn n inner = none
  · rw [putInnermost_append_of_unbound hinner, putInnermost]
    by_cases hg : g.binds n = true
    · rw [if_pos hg]
      exact ⟨inner, g.put n v, kept, rfl, (Frame.names_put_of_binds v hg).trans hnames, hkept⟩
    · rw [if_neg hg]
      have hb : ¬ b.binds n = true := by
        rwa [Frame.binds, ← hnames]
      exact ⟨inner, g, putInnermost n v kept, rfl, hnames, hkept.putInnermost hb v⟩
  · rw [putInnermost_append_of_bound hinner]
    exact ⟨putInnermost n v inner, g, kept, rfl, hnames, hkept⟩

/-- One thing is done that does not remove the frame. -/
theorem after (h : Standing b before fs) (hbefore : before ≠ []) {a : Access}
    (hsize : before.length < (a.after fs).length) : Standing b before (a.after fs) := by
  cases a with
  | get n => exact h
  | set n v => exact h.set n v
  | push f =>
      obtain ⟨inner, g, kept, rfl, hnames, hkept⟩ := h
      exact ⟨f :: inner, g, kept, rfl, hnames, hkept⟩
  | pop =>
      obtain ⟨inner, g, kept, rfl, hnames, hkept⟩ := h
      have hlength : before.length = kept.length := hkept.length_eq
      have hpos : 0 < before.length := List.length_pos_iff.mpr hbefore
      cases inner with
      | nil =>
          have hne : kept ≠ [] := by
            rw [← List.length_pos_iff]
            omega
          rw [List.nil_append, Access.after_pop_cons g hne] at hsize
          omega
      | cons f inner =>
          rw [List.cons_append, Access.after_pop_cons f (by simp)]
          exact ⟨inner, g, kept, rfl, hnames, hkept⟩

/-- Things are done none of which removes the frame. -/
theorem performAll {as : List Access} {env : Environment}
    (h : Standing b before env.scopes.frames) (hbefore : before ≠ [])
    (hsize : ∀ part, part <+: as → before.length < (Access.performAll part env).scopes.size) :
    Standing b before (Access.performAll as env).scopes.frames := by
  induction as generalizing env with
  | nil => exact h
  | cons a as ih =>
      have hfirst : before.length < (a.after env.scopes.frames).length := by
        have := hsize [a] (by simp)
        rwa [← Access.frames_perform]
      have hnext : Standing b before (a.perform env).env.scopes.frames := by
        rw [Access.frames_perform]
        exact h.after hbefore hfirst
      exact ih hnext fun part hpart => hsize (a :: part) ((List.prefix_cons_inj a).mpr hpart)

/-- When the frame is gone, so are the frames further in, and of the others the outermost ones are
left. -/
theorem shielded_of_suffix {left : List Frame} (h : Standing b before fs) (hleft : left <:+ fs)
    (hlength : left.length ≤ before.length) :
    Shielded (b.binds · = true) (before.drop (before.length - left.length)) left := by
  obtain ⟨inner, g, kept, rfl, -, hkept⟩ := h
  have heq : before.length = kept.length := hkept.length_eq
  have hsuffix : left <:+ kept := by
    refine List.suffix_of_suffix_length_le hleft ?_ (by omega)
    exact ⟨inner ++ [g], by simp⟩
  rw [List.suffix_iff_eq_drop.mp hsuffix, List.length_drop, heq, Nat.sub_sub_self (by omega)]
  exact List.forall₂_drop _ hkept

end Standing

namespace Access

/-- Pops take frames off from inside. -/
theorem suffix_performAll_pop (k : ℕ) (env : Environment) :
    (performAll (List.replicate k .pop) env).scopes.frames <:+ env.scopes.frames := by
  induction k generalizing env with
  | zero => exact List.suffix_refl _
  | succ k ih =>
      have hpop : (perform .pop env).env.scopes.frames <:+ env.scopes.frames := by
        rw [frames_perform]
        match env.scopes.frames with
        | [] => exact List.suffix_refl _
        | [f] => exact List.suffix_refl _
        | f :: g :: fs => exact List.suffix_cons f (g :: fs)
      exact (ih (perform .pop env).env).trans hpop

end Access

open Access in
/-- **An environment is a stack of scopes.** Whatever has been done with it since it was made of a
root, the root is its outermost frame, with the same names. What fails changes nothing, and popping
fails if and only if the root is the only frame. A name can be got if and only if it can be set, and
if and only if it is among the names, which are strictly increasing. Setting a name changes its
value in the innermost frame that binds it and nothing else, so it is got next, and every other name
is got as before. When a frame has been pushed, and popped again later, with whatever was done in
the meantime, the frames that are left have their names, and every name of the frame has the value
it had in each of them. -/
theorem performAll_scopes (root : Frame) (maxDepth : Int) (done : List Access) :
    let env := performAll done (.ofRoot root maxDepth)
    (env.scopes.frames.map Frame.names).getLast? = some root.names ∧
      (∀ a fault, (perform a env).result = .error fault → (perform a env).env = env) ∧
      ((∃ fault, (perform .pop env).result = .error fault) ↔ env.scopes.size = 1) ∧
      (∀ n, ((∃ v, (lookup n env).result = .ok v) ↔ n ∈ env.scopes.names) ∧
        ∀ v, (perform (.set n v) env).result = .ok () ↔ n ∈ env.scopes.names) ∧
      env.scopes.names.Pairwise Text.Before ∧
      (∀ n v, (perform (.set n v) env).result = .ok () →
        let left := (perform (.set n v) env).env
        (lookup n left).result = .ok v ∧
          (∀ m, m ≠ n → (lookup m left).result = (lookup m env).result) ∧
          ∃ above f g below, env.scopes.frames = above ++ f :: below ∧
            left.scopes.frames = above ++ g :: below ∧
            (∀ h ∈ above, h.binds n = false) ∧ f.binds n = true ∧ g.names = f.names ∧
            ∀ m, g.get? m = if m = n then some v else f.get? m) ∧
      ∀ (b : Frame) (more : List Access) (k : ℕ),
        (∀ part, part <+: more →
          env.scopes.size < (performAll (.push b :: part) env).scopes.size) →
        let left := performAll (.push b :: more ++ List.replicate k .pop) env
        left.scopes.size ≤ env.scopes.size →
          let found := env.scopes.frames.drop (env.scopes.size - left.scopes.size)
          Shielded (b.binds · = true) found left.scopes.frames ∧
            ∀ n, b.binds n = true → left.scopes.get? n = valueIn n found := by
  intro env
  refine ⟨getLast?_performAll done _, fun a fault h => env_perform_of_error h, pop_error_iff env,
    fun n => ⟨?_, fun v => ?_⟩, Text.pairwise_sortDistinct _, ?_, ?_⟩
  · simp only [lookup_ok_iff, mem_names_iff, Option.ne_none_iff_exists']
  · rw [mem_names_iff]
    exact assign_ok_iff n v env
  · intro n v h left
    have hbound : valueIn n env.scopes.frames ≠ none := (assign_ok_iff n v env).mp h
    have hframes := frames_perform (.set n v) env
    have hget : ∀ m, left.scopes.get? m = if m = n then some v else env.scopes.get? m := by
      intro m
      rw [get?_eq_valueIn, hframes]
      exact valueIn_putInnermost hbound
    refine ⟨?_, fun m hm => ?_, ?_⟩
    · rw [lookup_ok_iff, hget, if_pos rfl]
    · rw [lookup_apply, lookup_apply, hget, if_neg hm]
    · obtain ⟨above, f, below, hfs, habove, hf, hput⟩ := putInnermost_split hbound v
      exact ⟨above, f, f.put n v, below, hfs, hframes.trans hput, habove, hf,
        Frame.names_put_of_binds v hf, fun m => Frame.get?_put f m n v⟩
  · intro b more k hstands left hgone found
    have hpushed : Standing b env.scopes.frames (perform (.push b) env).env.scopes.frames :=
      .pushed b env.scopes.frames
    have hstanding : Standing b env.scopes.frames
        (performAll (.push b :: more) env).scopes.frames :=
      hpushed.performAll env.scopes.nonempty hstands
    have hsuffix : left.scopes.frames <:+ (performAll (.push b :: more) env).scopes.frames := by
      show (performAll (.push b :: more ++ List.replicate k .pop) env).scopes.frames <:+ _
      rw [performAll_append]
      exact suffix_performAll_pop k _
    have hshielded := hstanding.shielded_of_suffix hsuffix hgone
    exact ⟨hshielded, fun n hn => hshielded.valueIn_eq hn⟩

open Access in
/-- Under a frame for `x` another one for `y` comes and goes, and both names are set; what is set
where the frame of `y` no longer stands is all that is seen outside. -/
theorem performAll_scopes_nested :
    let root : Frame := .ofBindings [("x", .bool false), ("y", .bool false)]
    let env := performAll [.push .empty, .pop, .pop] (.ofRoot root 100)
    let b : Frame := .ofBindings [("x", .bool true)]
    let more : List Access := [.set "x" .nil, .push (.ofBindings [("y", .nil)]), .set "y" .nil,
      .pop, .set "y" (.bool true)]
    let left := performAll (.push b :: more ++ List.replicate 1 .pop) env
    ((perform .pop env).result = .error (.ofCause .rootPop) ∧ (perform .pop env).env = env) ∧
      ((perform (.set "y" .nil) env).result = .ok () ∧
        (lookup "y" (perform (.set "y" .nil) env).env).result = .ok .nil) ∧
      (∀ part, part <+: more →
        env.scopes.size < (performAll (.push b :: part) env).scopes.size) ∧
      left.scopes.size = 1 ∧ left.scopes.get? "x" = some (.bool false) ∧
      left.scopes.get? "y" = some (.bool true) := by
  intro root env b more left
  obtain ⟨-, hfail, -, -, -, hset, hunder⟩ :=
    performAll_scopes root 100 [.push .empty, .pop, .pop]
  have hstands : ∀ part, part <+: more →
      env.scopes.size < (performAll (.push b :: part) env).scopes.size := by
    intro part hpart
    have hall : ∀ part ∈ more.inits,
        env.scopes.size < (performAll (.push b :: part) env).scopes.size := by decide
    exact hall part ((List.mem_inits part more).mpr hpart)
  obtain ⟨-, hx⟩ := hunder b more 1 hstands (by decide)
  refine ⟨⟨rfl, hfail .pop _ rfl⟩, ⟨rfl, (hset "y" .nil rfl).1⟩, hstands, rfl, ?_, rfl⟩
  exact hx "x" rfl

end MiniLisp
