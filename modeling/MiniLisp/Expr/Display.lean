import MiniLisp.Expr.Basic
import MiniLisp.Number.Notation
import MiniLisp.Text.Quoted

set_option autoImplicit false

/-! # Written expressions

Two texts of an expression. `display` is what the language prints, and what it can read again: a
string stands between double quotes as it is, the items of a list between parentheses with a blank
between neighbours. `debug` names the kind of every expression and quotes every text, so that
different expressions have different texts.

A value that is no expression has neither; both are asked for through `shown` and `debugged`,
which give the first such value instead of a text.
-/

namespace MiniLisp.Expr

mutual

/-- The text that the language prints for an expression. -/
def display : Expr → Text
  | .bool b => if b then "true" else "false"
  | .num x => x.display
  | .str s => '"' :: (s ++ ['"'])
  | .sym name => name
  | .list items => '(' :: (displayItems items ++ [')'])
  | .foreign v => v.kind.name

/-- The items of a list, with a blank between neighbours. -/
def displayItems : List Expr → Text
  | [] => []
  | [e] => display e
  | e :: f :: es => display e ++ ' ' :: displayItems (f :: es)

end

mutual

/-- The text that tells an expression from every other one. -/
def debug : Expr → Text
  | .bool b => if b then "Bool(True)" else "Bool(False)"
  | .num x => "Num(" ++ x.debug ++ ")"
  | .str s => "Str(" ++ Text.quoted s ++ ")"
  | .sym name => "Symbol(" ++ Text.quoted name ++ ")"
  | .list items => "List([" ++ debugItems items ++ "])"
  | .foreign v => v.kind.name

/-- The items of a list, with a comma and a blank between neighbours. -/
def debugItems : List Expr → Text
  | [] => []
  | [e] => debug e
  | e :: f :: es => debug e ++ ", " ++ debugItems (f :: es)

end

/-- The displayed text, or the first value that has none. -/
def shown (e : Expr) : Except Foreign Text :=
  match e.foreign? with
  | some v => .error v
  | none => .ok e.display

/-- The debugging text, or the first value that has none. -/
def debugged (e : Expr) : Except Foreign Text :=
  match e.foreign? with
  | some v => .error v
  | none => .ok e.debug

end MiniLisp.Expr
