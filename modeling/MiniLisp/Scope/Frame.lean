import MiniLisp.Expr.Basic

set_option autoImplicit false

/-! # Frames

A frame binds names to values, each name once, in the order in which the names came in. Binding a
name again keeps its place and changes its value.
-/

namespace MiniLisp

/-- A frame: its bindings, no name twice. -/
@[ext]
structure Frame where
  bindings : List (Text × Expr)
  distinct : (bindings.map Prod.fst).Nodup

namespace Frame

/-- The frame without bindings. -/
def empty : Frame := ⟨[], List.nodup_nil⟩

/-- The names that a frame binds, in order. -/
def names (f : Frame) : List Text := f.bindings.map Prod.fst

/-- Whether a frame binds a name. -/
def binds (f : Frame) (n : Text) : Bool := decide (n ∈ f.names)

/-- The value that a frame binds a name to. -/
def get? (f : Frame) (n : Text) : Option Expr := f.bindings.lookup n

/-- The bindings with a new value for one name. -/
def replace (n : Text) (v : Expr) (bs : List (Text × Expr)) : List (Text × Expr) :=
  bs.map fun b => if b.1 = n then (n, v) else b

theorem map_fst_replace (n : Text) (v : Expr) (bs : List (Text × Expr)) :
    (replace n v bs).map Prod.fst = bs.map Prod.fst := by
  induction bs with
  | nil => rfl
  | cons b bs ih =>
    simp only [replace, List.map_cons, List.cons.injEq] at ih ⊢
    refine ⟨?_, ih⟩
    split
    · next h => exact h.symm
    · rfl

/-- Binds a name: in its place if the frame binds it already, else at the end. -/
def put (f : Frame) (n : Text) (v : Expr) : Frame :=
  if h : n ∈ f.names then
    ⟨replace n v f.bindings, by rw [map_fst_replace]; exact f.distinct⟩
  else
    ⟨f.bindings ++ [(n, v)], by
      rw [List.map_append, List.nodup_append]
      refine ⟨f.distinct, by simp, ?_⟩
      intro a ha b hb hab
      simp only [List.map_cons, List.map_nil, List.mem_singleton] at hb
      exact h (hb ▸ hab ▸ ha)⟩

/-! ### Looking up after binding -/

theorem names_put (f : Frame) (n : Text) (v : Expr) :
    (f.put n v).names = if n ∈ f.names then f.names else f.names ++ [n] := by
  unfold put
  split
  · exact map_fst_replace n v f.bindings
  · simp [names]

theorem lookup_replace_self (n : Text) (v : Expr) (bs : List (Text × Expr))
    (h : n ∈ bs.map Prod.fst) : (replace n v bs).lookup n = some v := by
  induction bs with
  | nil => cases h
  | cons b bs ih =>
    obtain ⟨k, w⟩ := b
    by_cases hk : k = n
    · simp [replace, hk]
    · have hm : n ∈ bs.map Prod.fst := by
        rcases List.mem_cons.mp h with h | h
        · exact absurd h.symm hk
        · exact h
      have hne : (n == k) = false := by simpa using fun h => hk h.symm
      have := ih hm
      simp only [replace] at this
      simp only [replace, List.map_cons, if_neg hk, List.lookup_cons, hne, this]

theorem lookup_replace_of_ne {m n : Text} (v : Expr) (bs : List (Text × Expr)) (h : m ≠ n) :
    (replace n v bs).lookup m = bs.lookup m := by
  induction bs with
  | nil => rfl
  | cons b bs ih =>
    obtain ⟨k, w⟩ := b
    simp only [replace] at ih
    by_cases hk : k = n
    · have hm : (m == n) = false := by simpa using h
      simp only [replace, List.map_cons, hk, if_true, List.lookup_cons, hm, ih]
    · simp only [replace, List.map_cons, if_neg hk, List.lookup_cons, ih]

theorem get?_put_self (f : Frame) (n : Text) (v : Expr) : (f.put n v).get? n = some v := by
  by_cases h : n ∈ f.names
  · simp only [get?, put, h, dif_pos]
    exact lookup_replace_self n v f.bindings h
  · have hn : f.bindings.lookup n = none := by
      rw [List.lookup_eq_none_iff]
      intro b hb
      have : n ≠ b.1 := fun hn => h (List.mem_map.mpr ⟨b, hb, hn.symm⟩)
      simpa using this
    simp [get?, put, h, List.lookup_append, hn]

theorem get?_put_of_ne (f : Frame) {m n : Text} (v : Expr) (h : m ≠ n) :
    (f.put n v).get? m = f.get? m := by
  by_cases hn : n ∈ f.names
  · simp only [get?, put, hn, dif_pos]
    exact lookup_replace_of_ne v f.bindings h
  · have hm : (m == n) = false := by simpa using h
    simp [get?, put, hn, List.lookup_append, List.lookup_cons, hm]

/-! ### The bindings of a frame -/

theorem mem_bindings_of_get? {f : Frame} {n : Text} {v : Expr} (h : f.get? n = some v) :
    (n, v) ∈ f.bindings := by
  obtain ⟨before, after, heq, -⟩ := List.lookup_eq_some_iff.mp h
  rw [heq]
  exact List.mem_append_right before List.mem_cons_self

theorem mem_bindings_put {f : Frame} {n : Text} {v : Expr} {b : Text × Expr}
    (h : b ∈ (f.put n v).bindings) : b = (n, v) ∨ b ∈ f.bindings := by
  unfold put at h
  split at h
  · obtain ⟨c, hc, rfl⟩ := List.mem_map.mp h
    by_cases hn : c.1 = n
    · left; rw [if_pos hn]
    · right; rwa [if_neg hn]
  · rcases List.mem_append.mp h with h | h
    · exact Or.inr h
    · exact Or.inl (List.mem_singleton.mp h)

/-- The frame of a list of bindings; of two for one name the later one counts. -/
def ofBindings (bs : List (Text × Expr)) : Frame :=
  bs.foldl (fun f b => f.put b.1 b.2) empty

end Frame

end MiniLisp
