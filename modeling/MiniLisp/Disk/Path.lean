import MiniLisp.Text.Basic

set_option autoImplicit false

/-! # Paths

A path names a place in the tree of directories by the steps to it, from the current directory or
from the root: down into a directory, up to the one it is in, or none at all. The steps stand
between slashes, of which several count as one. A path that ends in a slash names a directory.

A place is given without such detours: by the names on the way down from the root, or from the
current directory or one above it.
-/

namespace MiniLisp

/-- A step of a path. -/
inductive Path.Step where
  | stay
  | up
  | down (name : Text)
  deriving DecidableEq

/-- A path. -/
structure Path where
  absolute : Bool
  steps : List Path.Step
  toDirectory : Bool
  deriving DecidableEq

/-- Where the way down to a place begins: a number of levels above the current directory, or at
the root. -/
inductive Place.Origin where
  | above (levels : Nat)
  | root
  deriving DecidableEq

/-- A place in the tree of directories. -/
structure Place where
  origin : Place.Origin
  names : List Text
  deriving DecidableEq

namespace Place

/-- The place in a directory with the given name. -/
def child (p : Place) (name : Text) : Place := { p with names := p.names ++ [name] }

/-- The directory that a place is in. The root is in itself. -/
def parent (p : Place) : Place :=
  if p.names ≠ [] then { p with names := p.names.dropLast }
  else match p.origin with
    | .above n => ⟨.above (n + 1), []⟩
    | .root => p

/-- Whether a place is below another one. -/
def isBelow (p q : Place) : Bool :=
  p.origin = q.origin && q.names.isPrefixOf p.names && q.names.length < p.names.length

/-- The place that a step leads to. -/
def step (p : Place) : Path.Step → Place
  | .stay => p
  | .up => p.parent
  | .down name => p.child name

/-- A text that names the place. -/
def text (p : Place) : Text :=
  match p.origin with
  | .root => '/' :: Text.joinWith "/" p.names
  | .above n => Text.joinWith "/" (['.'] :: List.replicate n ['.', '.'] ++ p.names)

end Place

namespace Path

/-- The step that stands between two slashes. -/
def Step.ofText (name : Text) : Step :=
  if name = ['.'] then .stay else if name = ['.', '.'] then .up else .down name

/-- The path that a text names. -/
def ofText (t : Text) : Path where
  absolute := t.head? = some '/'
  steps := ((Text.splitOn '/' t).filter (· ≠ [])).map Step.ofText
  toDirectory := t.getLast? = some '/'

/-- Where a path starts. -/
def start (p : Path) : Place := ⟨if p.absolute then .root else .above 0, []⟩

/-- The place that a path leads to if every step can be taken. -/
def place (p : Path) : Place := p.steps.foldl Place.step p.start

end Path

end MiniLisp
