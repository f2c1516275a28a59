import MiniLisp.Text.Basic

set_option autoImplicit false

/-! # Positions

Positions in a list count from 0, negative ones from the end, so that `-1` is the last item. A
slice takes the items between two such positions; a position outside the list stands for the
nearer end, an open one for the end it is at. The position of a single item must be inside the
list; one outside is refused as too large if it is no signed 64-bit number.
-/

namespace MiniLisp.Position

/-- Why there is no item at a position. -/
inductive Problem where
  | outOfRange
  | tooLarge
  deriving DecidableEq

/-- What is said of a problem, where the list is called `collection`. -/
def Problem.message (collection : Text) : Problem → Text
  | .outOfRange => collection ++ " index out of range"
  | .tooLarge => "cannot fit 'int' into an index-sized integer"

/-- Whether a position is a signed 64-bit number. -/
def isWord (i : Int) : Bool :=
  -0x8000000000000000 ≤ i && i < 0x8000000000000000

/-- A position in a list of length `n`, counted from its start. -/
def fromStart (n : Nat) (i : Int) : Int :=
  if i < 0 then i + n else i

/-- The item at a position. -/
def item {α : Type} (items : List α) (i : Int) : Except Problem α :=
  let j := fromStart items.length i
  match if j < 0 then none else items[j.toNat]? with
  | some a => .ok a
  | none => .error (if isWord i then .outOfRange else .tooLarge)

/-- The end of a slice, as a number of items from the start of a list of length `n`. -/
def sliceEnd (n : Nat) (i : Int) : Nat :=
  min n (fromStart n i).toNat

/-- The items from the first position up to, but not at, the second. -/
def slice {α : Type} (items : List α) (start stop : Option Int) : List α :=
  let first := (start.map (sliceEnd items.length)).getD 0
  let upTo := (stop.map (sliceEnd items.length)).getD items.length
  (items.take upTo).drop first

end MiniLisp.Position
