import Std.Data.HashMap
import MiniLisp.Expr.Basic

set_option autoImplicit false

/-! # Looking up equal expressions

Expressions are hashed in a way that agrees with their equality: the two zeros have one hash. So
a hash table finds an equal expression wherever a search through the list would. A sequence or a
mapping of an embedding program cannot be looked up, nor can an expression that holds one.
-/

namespace MiniLisp

/-- A hash of texts. -/
def Text.hash (t : Text) : UInt64 :=
  t.foldl (fun h c => mixHash h c.val.toUInt64) 7

/-- A hash of numbers, the same for the two zeros. -/
def Binary64.hash (x : Binary64) : UInt64 :=
  match x.unsignedZero with
  | .nan => 1
  | .infinite s => mixHash 2 (Hashable.hash s)
  | .finite s m e _ => mixHash (Hashable.hash s) (mixHash (Hashable.hash m) (Hashable.hash e))

/-- A hash of the numbers of an embedding program. -/
def Foreign.Number.hash : Foreign.Number → UInt64
  | .integer n => mixHash 11 (Hashable.hash n)
  | .real _ => 13

/-- A hash of foreign values, the same for equal ones. -/
def Foreign.hash : Foreign → UInt64
  | .nothing => 2
  | .text t => mixHash 3 (Text.hash t)
  | .sequence _ => 5
  | .mapping .. => 7
  | v => (v.number?.map Number.hash).getD 17

namespace Expr

mutual

/-- A hash of expressions, the same for equal ones. -/
def hash : Expr → UInt64
  | .bool b => mixHash 11 (Hashable.hash b)
  | .num x => mixHash 13 x.hash
  | .str s => mixHash 17 (Text.hash s)
  | .sym name => mixHash 19 (Text.hash name)
  | .list items => mixHash 23 (hashItems items)
  | .foreign v => mixHash 29 v.hash

/-- A hash of the items of a list, in order. -/
def hashItems : List Expr → UInt64
  | [] => 7
  | e :: es => mixHash (hash e) (hashItems es)

end

instance : Hashable Expr := ⟨hash⟩

/-- The position of the first equal expression for each expression of a list, where `seen` has
the first positions among those before and `i` is the position of the first one here. -/
def firstEqualFrom (seen : Std.HashMap Expr Nat) (i : Nat) : List Expr → List Nat
  | [] => []
  | e :: es =>
      match seen[e]? with
      | some j => j :: firstEqualFrom seen (i + 1) es
      | none => i :: firstEqualFrom (seen.insert e i) (i + 1) es

mutual

/-- The first value in an expression, from left to right, that cannot be in a hash table. -/
def unhashable? : Expr → Option Foreign
  | .list items => firstUnhashable? items
  | .foreign v => if v.isHashable then none else some v
  | _ => none

/-- The first value in a list of expressions that cannot be in a hash table. -/
def firstUnhashable? : List Expr → Option Foreign
  | [] => none
  | e :: es => (unhashable? e).or (firstUnhashable? es)

end

/-- For each expression of a list, the position of the first one equal to it, or the first value
among them that cannot be looked up. -/
def firstEqual (es : List Expr) : Except Foreign (List Nat) :=
  match firstUnhashable? es with
  | some v => .error v
  | none => .ok (firstEqualFrom ∅ 0 es)

/-- The message that refuses to look a value up. -/
def unhashableMessage (v : Foreign) : Text := "unhashable type: '" ++ v.kind.name ++ "'"

end Expr

end MiniLisp
