import MiniLisp.Expr.Foreign

set_option autoImplicit false

/-! # Expressions

An expression is a truth value, a number, a string, a symbol or a list of expressions. It is both
the syntax of a program and the value of one.

Where an expression can stand, a value of an embedding program (`Foreign`) can stand too; it is
no expression of the language.

`e == f` is equality as the language sees it. It differs from `e = f` only at numbers: the two
zeros are equal.
-/

namespace MiniLisp

/-- An expression. -/
inductive Expr where
  | bool (b : Bool)
  | num (x : Binary64)
  | str (s : Text)
  | sym (name : Text)
  | list (items : List Expr)
  | foreign (value : Foreign)

namespace Expr

/-- The empty list. -/
def nil : Expr := .list []

instance : Inhabited Expr := ⟨nil⟩

mutual

/-- Equality as the language sees it. -/
def alike : Expr → Expr → Bool
  | .bool a, .bool b => a == b
  | .num x, .num y => x.alike y
  | .str s, .str t => s == t
  | .sym m, .sym n => m == n
  | .list es, .list fs => allAlike es fs
  | .foreign v, .foreign w => v.alike w
  | _, _ => false

/-- Equality of lists of expressions, item by item. -/
def allAlike : List Expr → List Expr → Bool
  | [], [] => true
  | e :: es, f :: fs => alike e f && allAlike es fs
  | _, _ => false

end

instance : BEq Expr := ⟨alike⟩

mutual

/-- The first value in an expression, from left to right, that is no expression. -/
def foreign? : Expr → Option Foreign
  | .list items => firstForeign? items
  | .foreign v => some v
  | _ => none

/-- The first value in a list of expressions that is no expression. -/
def firstForeign? : List Expr → Option Foreign
  | [] => none
  | e :: es => (foreign? e).or (firstForeign? es)

end

/-- The word for the kind of an expression in debugging texts and messages. -/
def kindName : Expr → Text
  | .bool _ => "Bool"
  | .num _ => "Num"
  | .str _ => "Str"
  | .sym _ => "Symbol"
  | .list _ => "List"
  | .foreign v => v.kind.name

end Expr

end MiniLisp
