import MiniLisp.Number.Binary64
import MiniLisp.Text.Basic

set_option autoImplicit false

/-! # Foreign values

A program that embeds the language may put values of its own into a scope or a list. They are no
expressions of the language, which hands them on untouched and refuses them wherever it would have
to look at them. It compares them, though: numbers by value, whatever kind of number they are, a
truth value being the number 0 or 1.
-/

namespace MiniLisp

/-- The kinds of values that an embedding program may hand in: nothing at all, a truth value, an
integer, a real number, a text, a sequence, a mapping. -/
inductive Foreign.Kind where
  | nothing
  | truth
  | integer
  | real
  | text
  | sequence
  | mapping
  deriving DecidableEq, Repr

/-- The word for a kind in messages. -/
def Foreign.Kind.name : Foreign.Kind → Text
  | .nothing => "NoneType"
  | .truth => "bool"
  | .integer => "int"
  | .real => "float"
  | .text => "str"
  | .sequence => "list"
  | .mapping => "dict"

/-- A value of an embedding program. A mapping has its keys in increasing order, each once, and
its values in the order of the keys. -/
inductive Foreign where
  | nothing
  | truth (b : Bool)
  | integer (n : Int)
  | real (x : Binary64)
  | text (t : Text)
  | sequence (items : List Foreign)
  | mapping (keys : List Text) (values : List Foreign)

/-- What a number is compared by: the integer it is equal to, or else itself. -/
inductive Foreign.Number where
  | integer (n : Int)
  | real (x : Binary64)
  deriving DecidableEq

namespace Foreign

instance : Inhabited Foreign := ⟨nothing⟩

/-- The kind of a value. -/
def kind : Foreign → Kind
  | .nothing => .nothing
  | .truth _ => .truth
  | .integer _ => .integer
  | .real _ => .real
  | .text _ => .text
  | .sequence _ => .sequence
  | .mapping .. => .mapping

/-- The number that a value is, if it is one. -/
def number? : Foreign → Option Number
  | .truth b => some (.integer (if b then 1 else 0))
  | .integer n => some (.integer n)
  | .real x => some ((x.integer?.map .integer).getD (.real x))
  | _ => none

mutual

/-- Equality of values. -/
def alike : Foreign → Foreign → Bool
  | .nothing, .nothing => true
  | .text s, .text t => s == t
  | .sequence vs, .sequence ws => allAlike vs ws
  | .mapping ks vs, .mapping ls ws => ks == ls && allAlike vs ws
  | v, w => v.number?.isSome && v.number? == w.number?

/-- Equality of sequences, item by item. -/
def allAlike : List Foreign → List Foreign → Bool
  | [], [] => true
  | v :: vs, w :: ws => alike v w && allAlike vs ws
  | _, _ => false

end

/-- Whether a value can be the key of a hash table. -/
def isHashable : Foreign → Bool
  | .sequence _ | .mapping .. => false
  | _ => true

end Foreign

end MiniLisp
