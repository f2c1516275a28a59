import MiniLisp.Scope.Frame

set_option autoImplicit false

/-! # Scopes

The scopes of a program are a stack of frames that is never empty: its outermost frame, the root,
stays. A name means what the innermost frame that binds it says; an assignment changes the value
in that frame and nowhere else.
-/

namespace MiniLisp

/-- A stack of frames, the innermost first. -/
@[ext]
structure Scopes where
  frames : List Frame
  nonempty : frames ≠ []

namespace Scopes

/-- The stack of a root alone. -/
def ofRoot (root : Frame) : Scopes := ⟨[root], by simp⟩

/-- The number of frames. -/
def size (s : Scopes) : Nat := s.frames.length

/-- The value of a name. -/
def get? (s : Scopes) (n : Text) : Option Expr := s.frames.findSome? (·.get? n)

/-- Whether some frame binds a name. -/
def binds (s : Scopes) (n : Text) : Bool := s.frames.any (·.binds n)

/-- The names that any frame binds, in increasing order. -/
def names (s : Scopes) : List Text := Text.sortDistinct (s.frames.flatMap Frame.names)

/-- The number of frames outside the innermost frame that binds a name. -/
def level? (n : Text) : List Frame → Option Nat
  | [] => none
  | f :: fs => if f.binds n then some fs.length else level? n fs

/-- Changes the value of a name in the innermost frame that binds it. -/
def putInnermost (n : Text) (v : Expr) : List Frame → List Frame
  | [] => []
  | f :: fs => if f.binds n then f.put n v :: fs else f :: putInnermost n v fs

theorem length_putInnermost (n : Text) (v : Expr) (fs : List Frame) :
    (putInnermost n v fs).length = fs.length := by
  induction fs with
  | nil => rfl
  | cons f fs ih =>
    simp only [putInnermost]
    split <;> simp [ih]

/-- The scopes after an assignment. -/
def put (s : Scopes) (n : Text) (v : Expr) : Scopes :=
  ⟨putInnermost n v s.frames, by
    have := s.nonempty
    rw [← List.length_pos_iff] at this ⊢
    rwa [length_putInnermost]⟩

/-- The scopes with one more frame inside. -/
def push (s : Scopes) (f : Frame) : Scopes := ⟨f :: s.frames, by simp⟩

/-- The scopes without the innermost frame, unless that is the root. -/
def pop? (s : Scopes) : Option Scopes :=
  match s.frames with
  | _ :: f :: fs => some ⟨f :: fs, by simp⟩
  | _ => none

/-- The frames without the innermost ones, so that the given number is left. -/
def outermost (n : Nat) : List Frame → List Frame
  | [] => []
  | [f] => [f]
  | f :: g :: fs => if n ≤ (g :: fs).length then outermost n (g :: fs) else f :: g :: fs

theorem outermost_ne_nil (n : Nat) (fs : List Frame) (h : fs ≠ []) : outermost n fs ≠ [] := by
  fun_induction outermost n fs with
  | case1 => exact h
  | case2 f => simp
  | case3 f g fs _ ih => exact ih (by simp)
  | case4 f g fs _ => simp

/-- The scopes without the innermost frames, so that the given number is left; the root stays. -/
def shrink (n : Nat) (s : Scopes) : Scopes :=
  ⟨outermost n s.frames, outermost_ne_nil n s.frames s.nonempty⟩

end Scopes

end MiniLisp
