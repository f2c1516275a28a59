import MiniLisp.Scope.Stack

set_option autoImplicit false

/-! # Environments

What an evaluation reads and changes: the scopes, the number of lists whose evaluation is in
progress, and the limit of that number.
-/

namespace MiniLisp

/-- An environment. -/
@[ext]
structure Environment where
  scopes : Scopes
  depth : Int
  maxDepth : Int

namespace Environment

/-- The environment before any evaluation. -/
def ofRoot (root : Frame) (maxDepth : Int) : Environment := ⟨.ofRoot root, 0, maxDepth⟩

/-- An environment in a debugging text. -/
def debug (env : Environment) : Text :=
  "<Environment frames=" ++ Text.ofNat env.scopes.size ++ ">"

end Environment

end MiniLisp
