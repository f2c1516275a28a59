import MiniLisp.Fault
import MiniLisp.Number.Numeral
import MiniLisp.Token

set_option autoImplicit false

/-! # Reading expressions

An opening parenthesis starts a list, which holds the expressions of the tokens up to the
parenthesis that closes it, or up to the end if none does. Any other token is an expression of
its own (`atom`); a closing parenthesis where no list is open is a symbol.

Lists may be nested only so deep. `depth` is the number of lists around the tokens, `limit` the
number that may not be exceeded. A list refused for its depth costs its opening parenthesis
only; a list that holds one too deep is passed over as a whole.
-/

namespace MiniLisp

/-- Whether a token is a string: it starts and ends with a double quote, not the same one. -/
def isQuoted (t : Token) : Bool :=
  2 ≤ t.length && t.head? = some '"' && t.getLast? = some '"'

/-- The expression of a single token. -/
def atom (t : Token) : Expr :=
  if t = ("true" : Text) then .bool true
  else if t = ("false" : Text) then .bool false
  else if isQuoted t then .str t.tail.dropLast
  else match Binary64.read? t with
    | some x => .num x
    | none => .sym t

/-- The tokens up to the parenthesis that closes the group they stand in, and the tokens after
it; `level` counts the groups that are open inside. -/
def splitGroup (level : Nat) : List Token → List Token × List Token
  | [] => ([], [])
  | t :: ts =>
      if t = [')'] then
        match level with
        | 0 => ([], ts)
        | level + 1 =>
            let (inside, after) := splitGroup level ts
            (t :: inside, after)
      else
        let (inside, after) := splitGroup (if t = ['('] then level + 1 else level) ts
        (t :: inside, after)

theorem length_splitGroup_le (level : Nat) (ts : List Token) :
    (splitGroup level ts).1.length + (splitGroup level ts).2.length ≤ ts.length := by
  induction ts generalizing level with
  | nil => simp [splitGroup]
  | cons t ts ih =>
    simp only [splitGroup]
    split
    · cases level with
      | zero => simp
      | succ level =>
        have := ih level
        simp only [List.length_cons]
        omega
    · have := ih (if t = ['('] then level + 1 else level)
      simp only [List.length_cons]
      omega

/-- All the expressions of the tokens inside `depth` lists. -/
def readItems (limit depth : Int) : List Token → Except Cause (List Expr)
  | [] => .ok []
  | t :: ts =>
      if t = ['('] then
        if limit ≤ depth then .error (.tooDeep limit)
        else do
          let items ← readItems limit (depth + 1) (splitGroup 0 ts).1
          let more ← readItems limit depth (splitGroup 0 ts).2
          return .list items :: more
      else do
        let more ← readItems limit depth ts
        return atom t :: more
  termination_by ts => ts.length
  decreasing_by
    all_goals
      have := length_splitGroup_le 0 ts
      simp only [List.length_cons]
      omega

/-- The first expression of the tokens inside `depth` lists, if there are tokens, and the tokens
that it leaves. -/
def readExpr (limit depth : Int) : List Token → Except Cause (Option Expr) × List Token
  | [] => (.ok none, [])
  | t :: ts =>
      if t = ['('] then
        if limit ≤ depth then (.error (.tooDeep limit), ts)
        else
          let (inside, after) := splitGroup 0 ts
          ((readItems limit (depth + 1) inside).map (some ∘ .list), after)
      else (.ok (some (atom t)), ts)

theorem length_readExpr_le (limit depth : Int) (t : Token) (ts : List Token) :
    (readExpr limit depth (t :: ts)).2.length ≤ ts.length := by
  have := length_splitGroup_le 0 ts
  simp only [readExpr]
  split
  · split
    · exact Nat.le_refl _
    · simp only
      omega
  · exact Nat.le_refl _

/-- The expressions read from a text, and why reading stopped before its end, if it did. -/
structure Reading where
  exprs : List Expr
  refused : Option Cause

/-- Reads one expression after the other. -/
def readTokens (limit : Int) : List Token → Reading
  | [] => ⟨[], none⟩
  | t :: ts =>
      match readExpr limit 0 (t :: ts), length_readExpr_le limit 0 t ts with
      | (.error c, _), _ => ⟨[], some c⟩
      | (.ok none, _), _ => ⟨[], none⟩
      | (.ok (some e), rest), _ =>
          let more := readTokens limit rest
          { more with exprs := e :: more.exprs }
  termination_by ts => ts.length
  decreasing_by
    simp only [List.length_cons] at *
    omega

/-- Reads the expressions of a text. -/
def readText (limit : Int) (t : Text) : Reading := readTokens limit (tokenize t)

/-- The number of lists that may stand around an expression where nothing else is said. -/
def defaultLimit : Int := 100

/-- Reads the first expression of a text, if there is one. -/
def readFirst (t : Text) : Except Cause (Option Expr) := (readExpr defaultLimit 0 (tokenize t)).1

end MiniLisp
