import MiniLisp.Text.Basic

set_option autoImplicit false

/-! # The content of files

A file holds bytes, and most of them are characters in UTF-8. A file that is no text can still
serve as a history, so its content is kept as what it is made of: characters, and the stray bytes
that belong to none. A file is a text exactly if it has no stray byte.
-/

namespace MiniLisp

/-- What files are made of: a character in UTF-8, or a byte that belongs to none. -/
inductive Disk.Piece where
  | char (c : Char)
  | stray (byte : UInt8)
  deriving DecidableEq

/-- The content of a file. -/
abbrev Disk.Content := List Disk.Piece

namespace Disk.Content

/-- The content of a file that holds a text. -/
def ofText (t : Text) : Content := t.map .char

/-- The text that a file holds, if it is one. -/
def text? : Content → Option Text
  | [] => some []
  | .char c :: r => (text? r).map (c :: ·)
  | .stray _ :: _ => none

/-- The pieces of bytes, from a position on. -/
def piecesFrom (bytes : ByteArray) (i : Nat) : Content :=
  if h : i < bytes.size then
    match bytes.utf8DecodeChar? i with
    | some c => .char c :: piecesFrom bytes (i + c.utf8Size)
    | none => .stray bytes[i] :: piecesFrom bytes (i + 1)
  else []
termination_by bytes.size - i
decreasing_by
  · have := c.utf8Size_pos
    omega
  · omega

/-- The content of a file that holds the given bytes. -/
def ofBytes (bytes : ByteArray) : Content := piecesFrom bytes 0

/-- The bytes of a file. -/
def toBytes (content : Content) : List UInt8 :=
  content.flatMap fun
    | .char c => String.utf8EncodeChar c
    | .stray b => [b]

end Disk.Content

end MiniLisp
