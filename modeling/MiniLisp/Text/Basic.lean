set_option autoImplicit false

/-! # Text

A text is a list of characters, so that reading it is recursion on a list. String literals are
coerced. The blank characters are the ones that separate tokens and are stripped from the ends
of an input line: the Unicode white space characters and the four information separators
U+001C to U+001F.
-/

namespace MiniLisp

/-- A text: its characters, in order. -/
abbrev Text := List Char

namespace Text

instance : Coe String Text := ⟨String.toList⟩

/-- The characters that stand between tokens. -/
def isBlank (c : Char) : Bool :=
  let n := c.toNat
  (0x09 ≤ n && n ≤ 0x0D) || (0x1C ≤ n && n ≤ 0x20) || n = 0x85 || n = 0xA0 || n = 0x1680 ||
    (0x2000 ≤ n && n ≤ 0x200A) || n = 0x2028 || n = 0x2029 || n = 0x202F || n = 0x205F ||
    n = 0x3000

/-- The text without the characters of a class at either end. -/
def stripBy (p : Char → Bool) (t : Text) : Text :=
  ((t.dropWhile p).reverse.dropWhile p).reverse

/-- The text without blanks at either end. -/
def strip (t : Text) : Text := stripBy isBlank t

/-- The texts put together, with a separator between neighbours. -/
def joinWith (separator : Text) (ts : List Text) : Text :=
  separator.intercalate ts

/-- The decimal digits of a number. -/
def ofNat (n : Nat) : Text := Nat.toDigits 10 n

/-- The decimal digits of an integer, after a minus sign if it is negative. -/
def ofInt : Int → Text
  | .ofNat n => ofNat n
  | .negSucc n => '-' :: ofNat (n + 1)

/-- Order by code points, the beginning of a text before the text. -/
def le : Text → Text → Bool
  | [], _ => true
  | _ :: _, [] => false
  | a :: s, b :: t => if a = b then le s t else a.toNat < b.toNat

/-- The texts in increasing order, each once. -/
def sortDistinct (ts : List Text) : List Text :=
  (ts.mergeSort le).eraseReps

/-- The parts of a list between the occurrences of an item. -/
def splitOn {α : Type} [DecidableEq α] (separator : α) : List α → List (List α)
  | [] => [[]]
  | a :: r =>
      if a = separator then [] :: splitOn separator r
      else match splitOn separator r with
        | [] => [[a]]
        | part :: parts => (a :: part) :: parts

/-- The text with every line end as a line feed; a carriage return ends a line too, alone or
before a line feed. -/
def unifyLineEnds : Text → Text
  | [] => []
  | '\r' :: '\n' :: t => '\n' :: unifyLineEnds t
  | c :: t => (if c = '\r' then '\n' else c) :: unifyLineEnds t

end Text

end MiniLisp
