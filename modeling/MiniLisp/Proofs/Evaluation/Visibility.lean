import MiniLisp.Proofs.Evaluation.Discipline
import MiniLisp.Proofs.Expr.Structure
import MiniLisp.Proofs.Scope.Stack

set_option autoImplicit false

/-! # An evaluation sees only the names that occur in the program

Two evaluations of one expression are followed side by side. What each has pushed so far is the
same in both; under it are the frames that each has found, which may differ in everything but the
values of the names that occur in the expression (`Twin`). An assignment goes to the same pushed
frame in both or, in both, to a frame that was found; there it changes the value of its name only.
So the two have one result, and neither touches a name that does not occur.
-/

namespace MiniLisp

open Eval Scopes

/-- Two environments in the course of one evaluation: on top are the frames it has pushed, which
bind only names of `S`, and under them are the frames it has found, which agree about those
names. -/
structure Twin (S : Text → Prop) (pushed found₁ found₂ : List Frame)
    (env₁ env₂ : Environment) : Prop where
  frames₁ : env₁.scopes.frames = pushed ++ found₁
  frames₂ : env₂.scopes.frames = pushed ++ found₂
  depth : env₁.depth = env₂.depth
  maxDepth : env₁.maxDepth = env₂.maxDepth
  agree : ∀ n, S n → valueIn n found₁ = valueIn n found₂
  own : ∀ f ∈ pushed, ∀ n, ¬ S n → f.get? n = none

/-- The frames that an evaluation has found, at a later time: none is gone, and a name that is not
in `S` has the value it had. -/
def Spared (S : Text → Prop) (fs gs : List Frame) : Prop :=
  gs.length = fs.length ∧ ∀ n, ¬ S n → valueIn n gs = valueIn n fs

/-- What becomes of twins: they are twins again, with at least as many frames pushed. -/
def Follow (S : Text → Prop) (pushed found₁ found₂ : List Frame)
    (env₁ env₂ : Environment) : Prop :=
  ∃ pushed' found₁' found₂', Twin S pushed' found₁' found₂' env₁ env₂ ∧
    pushed.length ≤ pushed'.length ∧ Spared S found₁ found₁' ∧ Spared S found₂ found₂'

section

variable {S : Text → Prop} {pushed found₁ found₂ : List Frame} {env₁ env₂ : Environment}

theorem Spared.refl (fs : List Frame) : Spared S fs fs := ⟨rfl, fun _ _ => rfl⟩

theorem Spared.trans {fs gs hs : List Frame} (h : Spared S fs gs) (h' : Spared S gs hs) :
    Spared S fs hs :=
  ⟨h'.1.trans h.1, fun n hn => (h'.2 n hn).trans (h.2 n hn)⟩

theorem Spared.putInnermost {n : Text} {v : Expr} {fs : List Frame} (hn : S n)
    (h : valueIn n fs ≠ none) : Spared S fs (putInnermost n v fs) := by
  refine ⟨length_putInnermost n v fs, fun m hm => ?_⟩
  rw [valueIn_putInnermost h, if_neg]
  rintro rfl
  exact hm hn

namespace Twin

theorem follow (h : Twin S pushed found₁ found₂ env₁ env₂) :
    Follow S pushed found₁ found₂ env₁ env₂ :=
  ⟨pushed, found₁, found₂, h, Nat.le_refl _, .refl _, .refl _⟩

theorem get?_eq (h : Twin S pushed found₁ found₂ env₁ env₂) {n : Text} (hn : S n) :
    env₁.scopes.get? n = env₂.scopes.get? n := by
  rw [get?_eq_valueIn, get?_eq_valueIn, h.frames₁, h.frames₂, valueIn_append, valueIn_append,
    h.agree n hn]

/-- One assignment to a name of `S` in both environments. -/
theorem assign (h : Twin S pushed found₁ found₂ env₁ env₂) {n : Text} (hn : S n) (v : Expr)
    (hv : env₁.scopes.get? n ≠ none) :
    Follow S pushed found₁ found₂ { env₁ with scopes := env₁.scopes.put n v }
      { env₂ with scopes := env₂.scopes.put n v } := by
  by_cases hp : valueIn n pushed = none
  · -- the name is bound in frames that were found, and in both of the stacks
    have hf₁ : valueIn n found₁ ≠ none := by
      rwa [get?_eq_valueIn, h.frames₁, valueIn_append, hp, Option.none_or] at hv
    have hf₂ : valueIn n found₂ ≠ none := h.agree n hn ▸ hf₁
    refine ⟨pushed, putInnermost n v found₁, putInnermost n v found₂, ⟨?_, ?_, h.depth, h.maxDepth,
      fun m hm => ?_, h.own⟩, Nat.le_refl _, .putInnermost hn hf₁, .putInnermost hn hf₂⟩
    · show putInnermost n v env₁.scopes.frames = _
      rw [h.frames₁, putInnermost_append_of_unbound hp]
    · show putInnermost n v env₂.scopes.frames = _
      rw [h.frames₂, putInnermost_append_of_unbound hp]
    · rw [valueIn_putInnermost hf₁, valueIn_putInnermost hf₂, h.agree m hm]
  · refine ⟨putInnermost n v pushed, found₁, found₂, ⟨?_, ?_, h.depth, h.maxDepth, h.agree,
      fun g hg m hm => ?_⟩, by rw [length_putInnermost], .refl _, .refl _⟩
    · show putInnermost n v env₁.scopes.frames = _
      rw [h.frames₁, putInnermost_append_of_bound hp]
    · show putInnermost n v env₂.scopes.frames = _
      rw [h.frames₂, putInnermost_append_of_bound hp]
    · obtain ⟨f, hf, hget⟩ := get?_of_mem_putInnermost hg
      rw [hget m (fun hmn => hm (hmn ▸ hn))]
      exact h.own f hf m hm

/-- One frame of names of `S` pushed in both environments. -/
theorem push (h : Twin S pushed found₁ found₂ env₁ env₂) {f : Frame}
    (hf : ∀ n, ¬ S n → f.get? n = none) :
    Twin S (f :: pushed) found₁ found₂ { env₁ with scopes := env₁.scopes.push f }
      { env₂ with scopes := env₂.scopes.push f } where
  frames₁ := congrArg (f :: ·) h.frames₁
  frames₂ := congrArg (f :: ·) h.frames₂
  depth := h.depth
  maxDepth := h.maxDepth
  agree := h.agree
  own g hg := by
    rcases List.mem_cons.mp hg with rfl | hg
    · exact hf
    · exact h.own g hg

theorem withDepth (h : Twin S pushed found₁ found₂ env₁ env₂) {d₁ d₂ : Int} (hd : d₁ = d₂) :
    Twin S pushed found₁ found₂ { env₁ with depth := d₁ } { env₂ with depth := d₂ } :=
  ⟨h.frames₁, h.frames₂, hd, h.maxDepth, h.agree, h.own⟩

end Twin

theorem Follow.trans {pushed' found₁' found₂' : List Frame} {env₁' env₂' : Environment}
    (hle : pushed.length ≤ pushed'.length) (h₁ : Spared S found₁ found₁')
    (h₂ : Spared S found₂ found₂') (h : Follow S pushed' found₁' found₂' env₁' env₂') :
    Follow S pushed found₁ found₂ env₁' env₂' := by
  obtain ⟨pushed'', found₁'', found₂'', ht, hle', h₁', h₂'⟩ := h
  exact ⟨pushed'', found₁'', found₂'', ht, hle.trans hle', h₁.trans h₁', h₂.trans h₂'⟩

/-- Cut back to the sizes they had before a frame was pushed, the twins that follow have as many
frames in common as before. -/
theorem Follow.shrink {env₁' env₂' : Environment} {f : Frame}
    (h : Twin S pushed found₁ found₂ env₁ env₂)
    (h' : Follow S (f :: pushed) found₁ found₂ env₁' env₂') :
    Follow S pushed found₁ found₂
      { env₁' with scopes := env₁'.scopes.shrink env₁.scopes.size }
      { env₂' with scopes := env₂'.scopes.shrink env₂.scopes.size } := by
  obtain ⟨pushed', found₁', found₂', ht, hle, hs₁, hs₂⟩ := h'
  rw [List.length_cons] at hle
  obtain ⟨above, below, rfl, hbelow⟩ : ∃ above below, pushed' = above ++ below ∧
      below.length = pushed.length :=
    ⟨pushed'.take (pushed'.length - pushed.length), pushed'.drop (pushed'.length - pushed.length),
      (List.take_append_drop ..).symm, by rw [List.length_drop]; omega⟩
  have hlen₁ : (below ++ found₁').length = env₁.scopes.size := by
    rw [size, h.frames₁, List.length_append, List.length_append, hbelow, hs₁.1]
  have hlen₂ : (below ++ found₂').length = env₂.scopes.size := by
    rw [size, h.frames₂, List.length_append, List.length_append, hbelow, hs₂.1]
  refine ⟨below, found₁', found₂', ⟨?_, ?_, ht.depth, ht.maxDepth, ht.agree, fun g hg => ?_⟩,
    by rw [hbelow], hs₁, hs₂⟩
  · exact frames_shrink (ht.frames₁.trans (List.append_assoc ..)) hlen₁
  · exact frames_shrink (ht.frames₂.trans (List.append_assoc ..)) hlen₂
  · exact ht.own g (List.mem_append_right above hg)

end

/-! ## Every evaluation -/

/-- Whether two runs of a computation from twins have the same result, which has a property, and
leave twins. -/
def Alongside (S : Text → Prop) {α : Type} (post : α → Prop) (m : Eval α) : Prop :=
  ∀ pushed found₁ found₂ env₁ env₂, Twin S pushed found₁ found₂ env₁ env₂ →
    (m env₁).result = (m env₂).result ∧ (∀ a, (m env₁).result = .ok a → post a) ∧
      Follow S pushed found₁ found₂ (m env₁).env (m env₂).env

namespace Alongside

variable {S : Text → Prop} {α β : Type} {post : α → Prop}

theorem pure {a : α} (ha : post a) : Alongside S post (Pure.pure a) := by
  intro pushed found₁ found₂ env₁ env₂ h
  refine ⟨rfl, ?_, h.follow⟩
  intro b hb
  cases hb
  exact ha

theorem bind {next : β → Prop} {m : Eval α} {k : α → Eval β} (hm : Alongside S post m)
    (hk : ∀ a, post a → Alongside S next (k a)) : Alongside S next (m >>= k) := by
  intro pushed found₁ found₂ env₁ env₂ h
  obtain ⟨hres, hpost, hfollow⟩ := hm _ _ _ _ _ h
  rcases bind_cases m k env₁ with ⟨f, hf, h₁⟩ | ⟨a, ha, h₁⟩
  · have hf₂ : (m env₂).result = .error f := hres ▸ hf
    rw [h₁, bind_of_error k hf₂]
    exact ⟨rfl, fun _ hb => (by cases hb), hfollow⟩
  · have ha₂ : (m env₂).result = .ok a := hres ▸ ha
    rw [h₁, bind_of_ok k ha₂]
    obtain ⟨pushed', found₁', found₂', ht, hle, hs₁, hs₂⟩ := hfollow
    obtain ⟨hres', hnext, hfollow'⟩ := hk a (hpost a ha) _ _ _ _ _ ht
    exact ⟨hres', hnext, hfollow'.trans hle hs₁ hs₂⟩

theorem raise (f : Fault) : Alongside S post (Eval.raise f) := by
  intro pushed found₁ found₂ env₁ env₂ h
  refine ⟨rfl, ?_, h.follow⟩
  intro b hb
  cases hb

theorem refuse (c : Text → Cause) (e : Expr) : Alongside S post (Eval.refuse c e) := by
  intro pushed found₁ found₂ env₁ env₂ h
  obtain ⟨f, hr⟩ := refuse_apply c e
  rw [hr, hr]
  exact ⟨rfl, fun _ hb => (by cases hb), h.follow⟩

theorem lookup {n : Text} (hn : S n) : Alongside S (fun _ => True) (Eval.lookup n) := by
  intro pushed found₁ found₂ env₁ env₂ h
  rw [lookup_apply, lookup_apply, h.get?_eq hn]
  exact ⟨rfl, fun _ _ => trivial, h.follow⟩

theorem assign {n : Text} (hn : S n) (v : Expr) :
    Alongside S (fun _ => True) (Eval.assign n v) := by
  intro pushed found₁ found₂ env₁ env₂ h
  -- the name has a value in both environments or in none
  have hbound : level? n env₁.scopes.frames = none ↔ level? n env₂.scopes.frames = none := by
    rw [level?_eq_none_iff, level?_eq_none_iff, ← get?_eq_valueIn, ← get?_eq_valueIn,
      h.get?_eq hn]
  rcases assign_cases n v env₁ with ⟨hl₁, h₁⟩ | ⟨level₁, hl₁, h₁⟩ <;>
    rcases assign_cases n v env₂ with ⟨hl₂, h₂⟩ | ⟨level₂, hl₂, h₂⟩ <;>
    rw [h₁, h₂]
  · exact ⟨rfl, fun _ _ => trivial, h.follow⟩
  · rw [hbound.mp hl₁] at hl₂
    cases hl₂
  · rw [hbound.mpr hl₂] at hl₁
    cases hl₁
  · refine ⟨rfl, fun _ _ => trivial, h.assign hn v ?_⟩
    rw [get?_eq_valueIn, Ne, ← level?_eq_none_iff, hl₁]
    exact Option.some_ne_none level₁

theorem declare {n : Text} (hn : S n) (v : Expr) :
    Alongside S (fun _ => True) (Eval.declare n v) := by
  intro pushed found₁ found₂ env₁ env₂ h
  rw [declare_apply, declare_apply]
  have hnew : ∀ m, ¬ S m → (Frame.empty.put n v).get? m = none := by
    intro m hm
    rw [Frame.get?_put, if_neg]
    · rfl
    · rintro rfl
      exact hm hn
  exact ⟨rfl, fun _ _ => trivial,
    .trans (Nat.le_succ _) (.refl _) (.refl _) (h.push hnew).follow⟩

theorem within {f : Frame} {m : Eval Expr} (hf : ∀ b ∈ f.bindings, S b.1)
    (hm : Alongside S (fun _ => True) m) : Alongside S (fun _ => True) (Eval.within f m) := by
  intro pushed found₁ found₂ env₁ env₂ h
  have hnew : ∀ n, ¬ S n → f.get? n = none := by
    intro n hn
    rw [Frame.get?_eq_none_iff, Frame.binds, decide_eq_false_iff_not]
    intro hmem
    obtain ⟨b, hb, rfl⟩ := List.mem_map.mp hmem
    exact hn (hf b hb)
  obtain ⟨hres, -, hfollow⟩ := hm _ _ _ _ _ (h.push hnew)
  rw [within_apply, within_apply]
  exact ⟨hres, fun _ _ => trivial, hfollow.shrink h⟩

theorem counted {m : Eval Expr} (hm : Alongside S (fun _ => True) m) :
    Alongside S (fun _ => True) (Eval.counted m) := by
  intro pushed found₁ found₂ env₁ env₂ h
  have hd := h.depth
  have hmax := h.maxDepth
  rcases counted_cases m env₁ with ⟨hle₁, h₁⟩ | ⟨hlt₁, h₁⟩ <;>
    rcases counted_cases m env₂ with ⟨hle₂, h₂⟩ | ⟨hlt₂, h₂⟩
  · rw [h₁, h₂, hmax]
    exact ⟨rfl, fun _ _ => trivial, h.follow⟩
  · omega
  · omega
  · rw [h₁, h₂]
    obtain ⟨hres, -, pushed', found₁', found₂', ht, hle, hs₁, hs₂⟩ :=
      hm _ _ _ _ _ (h.withDepth (congrArg (· + 1) hd))
    exact ⟨hres, fun _ _ => trivial, pushed', found₁', found₂',
      ht.withDepth (congrArg (· - 1) ht.depth), hle, hs₁, hs₂⟩

theorem dispatched (b : Builtin) (k : Nat) {m : Eval Expr}
    (hm : Alongside S (fun _ => True) m) :
    Alongside S (fun _ => True) (Eval.dispatched b k m) := by
  intro pushed found₁ found₂ env₁ env₂ h
  obtain ⟨hres, -, hfollow⟩ := hm _ _ _ _ _ h
  rcases dispatched_cases b k m env₁ with ⟨f₁, hf₁, h₁⟩ | ⟨a₁, ha₁, h₁⟩ <;>
    rcases dispatched_cases b k m env₂ with ⟨f₂, hf₂, h₂⟩ | ⟨a₂, ha₂, h₂⟩ <;>
    rw [h₁, h₂]
  · rw [hf₁, hf₂, Except.error.injEq] at hres
    exact ⟨by rw [hres], fun _ _ => trivial, hfollow⟩
  · rw [hf₁, ha₂] at hres
    cases hres
  · rw [ha₁, hf₂] at hres
    cases hres
  · rw [ha₁, ha₂] at hres
    exact ⟨hres, fun _ _ => trivial, hfollow⟩

theorem uncallable {n : Text} (hn : S n) :
    Alongside S (fun _ => True) (Eval.uncallable n : Eval Expr) := by
  intro pushed found₁ found₂ env₁ env₂ h
  rw [uncallable_apply, uncallable_apply, h.get?_eq hn]
  exact ⟨rfl, fun _ _ => trivial, h.follow⟩

end Alongside

/-- Two runs from twins of a program with names of `S` have the same result and leave twins. -/
def sideBySide (S : Text → Prop) : Discipline where
  code e := ∀ n ∈ e.symbols, S n
  form _ := True
  value _ := True
  holds := Alongside S
  code_item h he := Expr.forall_symbols_of_mem h he
  form_of_code _ _ := trivial
  value_bool _ := trivial
  value_num _ := trivial
  value_str _ := trivial
  value_nil := trivial
  pure := Alongside.pure
  bind := Alongside.bind
  fail c := Alongside.raise (.ofCause c)
  refuse c e _ := Alongside.refuse c e
  foreign _ := Alongside.raise _
  lookup hn := Alongside.lookup (hn _ (Expr.mem_symbols_sym _))
  assign _ hn _ := Alongside.assign (hn _ (Expr.mem_symbols_sym _)) _
  declare _ hn _ := Alongside.declare (hn _ (Expr.mem_symbols_sym _)) _
  within hf hm := Alongside.within (fun b hb => (hf b hb).1 b.1 (Expr.mem_symbols_sym b.1)) hm
  counted := Alongside.counted
  dispatched hm := Alongside.dispatched _ _ hm
  uncallable hn := Alongside.uncallable (hn _ (Expr.mem_symbols_sym _))

/-- **Evaluation depends only on the visible values of the names that occur.** In two environments
of the same depth and limit in which every name that occurs in an expression has the same value,
or none in both, the expression has the same result. Afterwards the environments agree again about
these names, and every other name has the value it had. -/
theorem evaluate_congr (e : Expr) (env₁ env₂ : Environment) (hdepth : env₁.depth = env₂.depth)
    (hmax : env₁.maxDepth = env₂.maxDepth)
    (hget : ∀ n ∈ e.symbols, env₁.scopes.get? n = env₂.scopes.get? n) :
    (evaluate e env₁).result = (evaluate e env₂).result ∧
      (∀ n ∈ e.symbols,
        (evaluate e env₁).env.scopes.get? n = (evaluate e env₂).env.scopes.get? n) ∧
      ∀ n, n ∉ e.symbols →
        (evaluate e env₁).env.scopes.get? n = env₁.scopes.get? n ∧
          (evaluate e env₂).env.scopes.get? n = env₂.scopes.get? n := by
  have htwin : Twin (· ∈ e.symbols) [] env₁.scopes.frames env₂.scopes.frames env₁ env₂ :=
    ⟨rfl, rfl, hdepth, hmax, hget, fun f hf => by cases hf⟩
  obtain ⟨hres, -, pushed, found₁, found₂, ht, -, hs₁, hs₂⟩ :=
    (sideBySide (· ∈ e.symbols)).evaluate (fun n hn => hn) _ _ _ _ _ htwin
  refine ⟨hres, fun n hn => ht.get?_eq hn, fun n hn => ?_⟩
  have hnone : valueIn n pushed = none := valueIn_eq_none (fun f hf => ht.own f hf n hn)
  constructor
  · rw [get?_eq_valueIn, ht.frames₁, valueIn_append, hnone, Option.none_or, hs₁.2 n hn]
    rfl
  · rw [get?_eq_valueIn, ht.frames₂, valueIn_append, hnone, Option.none_or, hs₂.2 n hn]
    rfl

/-- An assignment cannot tell whether the name has a second value outside the first one. -/
theorem evaluate_congr_shadowed :
    (∀ n ∈ (Expr.list [.sym "set", .sym "x", .bool true]).symbols,
      (Scopes.ofRoot (.ofBindings [("x", .bool false)])).get? n =
        ((Scopes.ofRoot (.ofBindings [("x", .nil)])).push
          (.ofBindings [("x", .bool false)])).get? n) ∧
    (evaluate (.list [.sym "set", .sym "x", .bool true])
        ⟨.ofRoot (.ofBindings [("x", .bool false)]), 0, 100⟩).result =
      (evaluate (.list [.sym "set", .sym "x", .bool true])
        ⟨(Scopes.ofRoot (.ofBindings [("x", .nil)])).push (.ofBindings [("x", .bool false)]),
          0, 100⟩).result := by
  have hget : ∀ n ∈ (Expr.list [.sym "set", .sym "x", .bool true]).symbols,
      (Scopes.ofRoot (.ofBindings [("x", .bool false)])).get? n =
        ((Scopes.ofRoot (.ofBindings [("x", .nil)])).push
          (.ofBindings [("x", .bool false)])).get? n := by
    intro n hn
    simp only [Expr.symbols, Expr.symbolsOfItems, List.append_nil, List.singleton_append,
      List.mem_cons, List.not_mem_nil, or_false] at hn
    rcases hn with rfl | rfl
    · rfl
    · rfl
  refine ⟨hget, ?_⟩
  exact (evaluate_congr _ ⟨.ofRoot (.ofBindings [("x", .bool false)]), 0, 100⟩
    ⟨(Scopes.ofRoot (.ofBindings [("x", .nil)])).push (.ofBindings [("x", .bool false)]), 0, 100⟩
    rfl rfl hget).1

end MiniLisp
