import MiniLisp.Proofs.Text.Order
import MiniLisp.Scope.Stack

set_option autoImplicit false

/-! # Frames in a stack

What a name means in a stack of frames (`Scopes.valueIn`), which of them is its own
(`Scopes.level?`), what an assignment to it changes, and what is left of a stack that is cut back to
a number of frames.
-/

namespace MiniLisp

namespace Frame

theorem isSome_get? (f : Frame) (n : Text) : (f.get? n).isSome = f.binds n := by
  rw [Bool.eq_iff_iff, Option.isSome_iff_ne_none, get?, Ne, List.lookup_eq_none_iff, binds,
    decide_eq_true_eq, names, List.mem_map]
  constructor
  · intro h
    by_contra hn
    refine h (fun b hb => ?_)
    have : n ≠ b.1 := fun hb' => hn ⟨b, hb, hb'.symm⟩
    simpa using this
  · rintro ⟨b, hb, rfl⟩ h
    simpa using h b hb

theorem get?_eq_none_iff (f : Frame) (n : Text) : f.get? n = none ↔ f.binds n = false := by
  rw [← isSome_get?, Option.isSome_eq_false_iff, Option.isNone_iff_eq_none]

/-- After a binding the name has its value, and every other name the one it had. -/
theorem get?_put (f : Frame) (m n : Text) (v : Expr) :
    (f.put n v).get? m = if m = n then some v else f.get? m := by
  by_cases h : m = n
  · rw [if_pos h, h, get?_put_self]
  · rw [if_neg h, get?_put_of_ne f v h]

theorem names_put_of_binds {f : Frame} {n : Text} (v : Expr) (h : f.binds n = true) :
    (f.put n v).names = f.names := by
  rw [names_put, if_pos (of_decide_eq_true h)]

theorem binds_put (f : Frame) (m n : Text) (v : Expr) :
    (f.put n v).binds m = true ↔ f.binds m = true ∨ m = n := by
  rw [← isSome_get?, ← isSome_get?, get?_put]
  by_cases h : m = n
  · simp [h]
  · simp [h]

end Frame

namespace Scopes

/-- A stack has the names that its frames bind. -/
theorem mem_names_iff_binds {s : Scopes} {n : Text} :
    n ∈ s.names ↔ ∃ f ∈ s.frames, f.binds n = true := by
  rw [names, Text.mem_sortDistinct, List.mem_flatMap]
  simp only [Frame.binds, decide_eq_true_iff]

/-! ## The innermost binding of a name -/

/-- The value of a name in the innermost frame that binds it. -/
def valueIn (n : Text) (fs : List Frame) : Option Expr := fs.findSome? (·.get? n)

theorem get?_eq_valueIn (s : Scopes) (n : Text) : s.get? n = valueIn n s.frames := rfl

theorem valueIn_cons (n : Text) (f : Frame) (fs : List Frame) :
    valueIn n (f :: fs) = (f.get? n).or (valueIn n fs) := by
  rw [valueIn, List.findSome?_cons]
  cases f.get? n <;> rfl

theorem valueIn_append (n : Text) (fs gs : List Frame) :
    valueIn n (fs ++ gs) = (valueIn n fs).or (valueIn n gs) := by
  rw [valueIn, List.findSome?_append]
  rfl

theorem valueIn_eq_none {n : Text} {fs : List Frame} (h : ∀ f ∈ fs, f.get? n = none) :
    valueIn n fs = none := by
  rw [valueIn, List.findSome?_eq_none_iff]
  exact h

theorem level?_lt {n : Text} {level : Nat} {fs : List Frame} (h : level? n fs = some level) :
    level < fs.length := by
  induction fs with
  | nil => cases h
  | cons f fs ih =>
      rw [level?] at h
      split at h
      · cases h; simp
      · have := ih h
        simp only [List.length_cons]
        omega

/-- A name is bound in a stack if and only if it has a value there. -/
theorem level?_eq_none_iff (n : Text) (fs : List Frame) :
    level? n fs = none ↔ valueIn n fs = none := by
  induction fs with
  | nil => simp [level?, valueIn]
  | cons f fs ih =>
      rw [level?, valueIn_cons]
      cases hf : f.get? n with
      | none =>
          rw [(f.get?_eq_none_iff n).mp hf]
          simpa using ih
      | some v =>
          have hb : f.binds n = true := by rw [← f.isSome_get? n, hf]; rfl
          simp [hb]

/-- The frame of a name has as many frames outside it as stand behind it in the stack. -/
theorem level?_eq_findIdx? (n : Text) (fs : List Frame) :
    level? n fs = (fs.findIdx? (·.binds n)).map (fs.length - 1 - ·) := by
  induction fs with
  | nil => rfl
  | cons f fs ih =>
      rw [level?, List.findIdx?_cons]
      by_cases hf : f.binds n
      · simp [hf]
      · rw [if_neg hf, if_neg hf, ih, Option.map_map]
        apply Option.map_congr
        intro i hi
        obtain ⟨hlt, -⟩ := List.findIdx?_eq_some_iff_getElem.mp hi
        rw [Function.comp_apply, List.length_cons]
        omega

/-- A name that is bound in the innermost of some frames has its frame there. -/
theorem level?_cons_of_binds {n : Text} {f : Frame} (h : f.binds n = true) (fs : List Frame) :
    level? n (f :: fs) = some fs.length := by
  rw [level?, if_pos h]

theorem level?_cons_of_not_binds {n : Text} {f : Frame} (h : ¬ f.binds n = true)
    (fs : List Frame) : level? n (f :: fs) = level? n fs := by
  rw [level?, if_neg h]

/-- If the frame of a name is one of the outer frames, it is the innermost one of these. -/
theorem level?_of_append {n : Text} {level : ℕ} {above fs : List Frame}
    (h : level? n (above ++ fs) = some level) (hlt : level < fs.length) :
    level? n fs = some level := by
  induction above with
  | nil => exact h
  | cons f above ih =>
      rw [List.cons_append, level?] at h
      split at h
      · cases h
        rw [List.length_append] at hlt
        omega
      · exact ih h

/-! ## Assignments -/

/-- After an assignment the name has the value, and every other name the one it had. -/
theorem valueIn_putInnermost {m n : Text} {v : Expr} {fs : List Frame}
    (h : valueIn n fs ≠ none) :
    valueIn m (putInnermost n v fs) = if m = n then some v else valueIn m fs := by
  induction fs with
  | nil => exact absurd rfl h
  | cons f fs ih =>
      rw [valueIn_cons] at h
      rw [putInnermost]
      split
      · rw [valueIn_cons, valueIn_cons, Frame.get?_put]
        split <;> rfl
      · next hb =>
          have hf : f.get? n = none := (f.get?_eq_none_iff n).mpr (by simpa using hb)
          rw [hf, Option.none_or] at h
          rw [valueIn_cons, valueIn_cons, ih h]
          by_cases hm : m = n
          · rw [if_pos hm, if_pos hm, hm, hf, Option.none_or]
          · rw [if_neg hm, if_neg hm]

theorem putInnermost_append_of_bound {n : Text} {v : Expr} {fs : List Frame}
    (h : valueIn n fs ≠ none) (gs : List Frame) :
    putInnermost n v (fs ++ gs) = putInnermost n v fs ++ gs := by
  induction fs with
  | nil => exact absurd rfl h
  | cons f fs ih =>
      rw [List.cons_append, putInnermost, putInnermost]
      split
      · rfl
      · next hb =>
          have hf : f.get? n = none := (f.get?_eq_none_iff n).mpr (by simpa using hb)
          rw [valueIn_cons, hf, Option.none_or] at h
          rw [ih h, List.cons_append]

theorem putInnermost_append_of_unbound {n : Text} {v : Expr} {fs : List Frame}
    (h : valueIn n fs = none) (gs : List Frame) :
    putInnermost n v (fs ++ gs) = fs ++ putInnermost n v gs := by
  induction fs with
  | nil => rfl
  | cons f fs ih =>
      rw [valueIn_cons, Option.or_eq_none_iff] at h
      have hb : f.binds n = false := (f.get?_eq_none_iff n).mp h.1
      rw [List.cons_append, putInnermost, hb, if_neg (by simp), ih h.2, List.cons_append]

theorem putInnermost_of_unbound {n : Text} {fs : List Frame} (h : valueIn n fs = none)
    (v : Expr) : putInnermost n v fs = fs := by
  have hsame := putInnermost_append_of_unbound (v := v) h []
  rwa [List.append_nil, putInnermost, List.append_nil] at hsame

/-- The innermost frame that binds the name is changed, and no other. -/
theorem putInnermost_split {n : Text} {fs : List Frame} (h : valueIn n fs ≠ none) (v : Expr) :
    ∃ above f below, fs = above ++ f :: below ∧ (∀ g ∈ above, g.binds n = false) ∧
      f.binds n = true ∧ putInnermost n v fs = above ++ f.put n v :: below := by
  induction fs with
  | nil => exact absurd rfl h
  | cons f fs ih =>
      rw [putInnermost]
      by_cases hf : f.binds n = true
      · exact ⟨[], f, fs, rfl, by simp, hf, if_pos hf⟩
      · rw [Bool.not_eq_true] at hf
        rw [valueIn_cons, (f.get?_eq_none_iff n).mpr hf, Option.none_or] at h
        obtain ⟨above, g, below, rfl, habove, hg, hput⟩ := ih h
        refine ⟨f :: above, g, below, rfl, List.forall_mem_cons.mpr ⟨hf, habove⟩, hg, ?_⟩
        rw [hf, hput]
        rfl

theorem map_names_putInnermost (n : Text) (v : Expr) (fs : List Frame) :
    (putInnermost n v fs).map Frame.names = fs.map Frame.names := by
  induction fs with
  | nil => rfl
  | cons f fs ih =>
      rw [putInnermost]
      by_cases hf : f.binds n = true
      · rw [if_pos hf, List.map_cons, List.map_cons, Frame.names_put_of_binds v hf]
      · rw [if_neg hf, List.map_cons, List.map_cons, ih]

/-- A frame after an assignment is one that was there, or one with the new value. -/
theorem mem_putInnermost {n : Text} {v : Expr} {fs : List Frame} {g : Frame}
    (h : g ∈ putInnermost n v fs) : g ∈ fs ∨ ∃ f ∈ fs, g = f.put n v := by
  induction fs with
  | nil => exact Or.inl h
  | cons f fs ih =>
      rw [putInnermost] at h
      split at h
      · rcases List.mem_cons.mp h with rfl | h
        · exact Or.inr ⟨f, by simp, rfl⟩
        · exact Or.inl (by simp [h])
      · rcases List.mem_cons.mp h with rfl | h
        · exact Or.inl (by simp)
        · rcases ih h with h | ⟨f', hf', rfl⟩
          · exact Or.inl (by simp [h])
          · exact Or.inr ⟨f', by simp [hf'], rfl⟩

/-- An assignment changes no other name in any frame. -/
theorem get?_of_mem_putInnermost {n : Text} {v : Expr} {fs : List Frame} {g : Frame}
    (h : g ∈ putInnermost n v fs) : ∃ f ∈ fs, ∀ m, m ≠ n → g.get? m = f.get? m := by
  rcases mem_putInnermost h with h | ⟨f, hf, rfl⟩
  · exact ⟨g, h, fun _ _ => rfl⟩
  · exact ⟨f, hf, fun m hm => Frame.get?_put_of_ne f v hm⟩

/-! ## Cutting a stack back -/

theorem mem_of_mem_outermost {n : Nat} {fs : List Frame} {f : Frame} (h : f ∈ outermost n fs) :
    f ∈ fs := by
  fun_induction outermost n fs with
  | case1 => exact h
  | case2 g => exact h
  | case3 g g' fs _ ih => exact List.mem_cons_of_mem g (ih h)
  | case4 g g' fs _ => exact h

theorem length_outermost_le {n : Nat} (h : 0 < n) (fs : List Frame) :
    (outermost n fs).length ≤ n := by
  fun_induction outermost n fs with
  | case1 => exact Nat.zero_le n
  | case2 f => exact h
  | case3 f g fs _ ih => exact ih
  | case4 f g fs hlt =>
      rw [List.length_cons]
      omega

theorem outermost_length (fs : List Frame) : outermost fs.length fs = fs := by
  cases fs with
  | nil => rfl
  | cons f fs =>
      cases fs with
      | nil => rfl
      | cons g fs => rw [outermost, if_neg (by simp)]

/-- Cut back to the number of frames it had, a stack is as it was before frames were pushed. -/
theorem outermost_append (above : List Frame) {fs : List Frame} (h : fs ≠ []) :
    outermost fs.length (above ++ fs) = fs := by
  induction above with
  | nil => exact outermost_length fs
  | cons f above ih =>
      obtain ⟨g, gs, hg⟩ : ∃ g gs, above ++ fs = g :: gs :=
        List.exists_cons_of_ne_nil (by simp [h])
      rw [List.cons_append, hg, outermost, if_pos, ← hg, ih]
      rw [← hg, List.length_append]
      omega

/-- Cut back to the size of an earlier stack, the frames are those under everything stacked on
them since. -/
theorem frames_shrink {s t : Scopes} {above fs : List Frame} (hs : s.frames = above ++ fs)
    (ht : fs.length = t.size) : (s.shrink t.size).frames = fs := by
  have hne : fs ≠ [] := by
    rw [← List.length_pos_iff, ht]
    exact List.length_pos_iff.mpr t.nonempty
  show outermost t.size s.frames = fs
  rw [hs, ← ht, outermost_append above hne]

/-- A frame that is pushed and then taken off leaves the scopes as they were. -/
theorem shrink_push (s : Scopes) (f : Frame) : (s.push f).shrink s.size = s := by
  have hframes : (s.push f).frames = [f] ++ s.frames := rfl
  exact Scopes.ext (frames_shrink hframes rfl)

/-! ## The values in a stack -/

/-- Whether every value that any frame binds has a property. -/
def AllValues (p : Expr → Prop) (s : Scopes) : Prop :=
  ∀ f ∈ s.frames, ∀ b ∈ f.bindings, p b.2

namespace AllValues

variable {p : Expr → Prop} {s : Scopes}

theorem get? (h : AllValues p s) {n : Text} {v : Expr} (hv : s.get? n = some v) : p v := by
  obtain ⟨f, hf, hget⟩ := List.exists_of_findSome?_eq_some hv
  exact h f hf (n, v) (Frame.mem_bindings_of_get? hget)

theorem put (h : AllValues p s) (n : Text) {v : Expr} (hv : p v) : AllValues p (s.put n v) := by
  intro g hg b hb
  rcases mem_putInnermost hg with hg | ⟨f, hf, rfl⟩
  · exact h g hg b hb
  · rcases Frame.mem_bindings_put hb with rfl | hb
    · exact hv
    · exact h f hf b hb

theorem push (h : AllValues p s) {f : Frame} (hf : ∀ b ∈ f.bindings, p b.2) :
    AllValues p (s.push f) := by
  intro g hg
  rcases List.mem_cons.mp hg with rfl | hg
  · exact hf
  · exact h g hg

theorem shrink (h : AllValues p s) (n : Nat) : AllValues p (s.shrink n) :=
  fun f hf => h f (mem_of_mem_outermost hf)

end AllValues

end Scopes

end MiniLisp
