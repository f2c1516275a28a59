import MiniLisp.Builtin

set_option autoImplicit false

/-! # Completion

What a name that is being typed may become: a built-in form or a name that is bound, each once,
the forms first, both in increasing order.
-/

namespace MiniLisp

/-- The characters at which a name that is being typed starts anew. -/
def completionDelimiters : Text := " ()\""

/-- The names to choose from, where `bound` are the names that are bound, in increasing order. -/
def completionNames (bound : List Text) : List Text :=
  Builtin.names ++ bound.filter fun n => !Builtin.names.contains n

/-- The names that start with a text. -/
def completions (bound : List Text) (start : Text) : List Text :=
  (completionNames bound).filter start.isPrefixOf

end MiniLisp
