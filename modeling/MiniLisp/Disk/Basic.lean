import MiniLisp.Disk.Content
import MiniLisp.Disk.Path

set_option autoImplicit false

/-! # Files

The files that a program meets, seen from its current directory. A name is followed step by step;
each step is taken in a directory, so the way to a file can fail before its end. What is done with
files is to look for one (`find`), to read one as a text (`readText`), to add to the end of one
(`append`), to make a new one (`create`), and to change the content of one (`modify`).
-/

namespace MiniLisp

namespace Disk

/-- What stands at a place. A sink takes what is written to it and gives nothing back. -/
inductive Entry where
  | file (content : Content)
  | directory
  | sink
  deriving DecidableEq

/-- Why a file cannot be found, read or written. -/
inductive Problem where
  | notFound
  | isDirectory
  | notDirectory
  | notRegular
  | notText
  | nameTooLong
  | nulInName
  deriving DecidableEq

/-- What is said of a problem. -/
def Problem.message : Problem → Text
  | .notFound => "no such file or directory"
  | .isDirectory => "is a directory"
  | .notDirectory => "not a directory"
  | .notRegular => "invalid argument"
  | .notText => "not a text in UTF-8"
  | .nameTooLong => "file name too long"
  | .nulInName => "embedded null byte"

end Disk

/-- The files: what stands at which place. -/
structure Disk where
  entries : List (Place × Disk.Entry)

namespace Disk

/-! ## Finding -/

/-- The directories that stand below the root of every system. -/
def standardDirectories : List Text :=
  ["bin", "boot", "dev", "etc", "home", "lib", "media", "mnt", "opt", "proc", "root", "run",
    "sbin", "srv", "sys", "tmp", "usr", "var"]

/-- What stands at a place of every system: a directory below the root, or the null device. -/
def standard? : Place → Option Entry
  | ⟨.root, [name]⟩ => if standardDirectories.contains name then some .directory else none
  | ⟨.root, [directory, name]⟩ =>
      if directory = ("dev" : Text) ∧ name = ("null" : Text) then some .sink else none
  | _ => none

/-- What stands at a place, if anything. The directory that a way starts in is there, and so is
every directory above a file. -/
def entry? (d : Disk) (p : Place) : Option Entry :=
  match d.entries.lookup p with
  | some e => some e
  | none =>
      if p.names = [] || d.entries.any (·.1.isBelow p) then some .directory else standard? p

/-- The number of bytes of a name in a directory, at most. -/
def nameLimit : Nat := 255

/-- The number of bytes of a path, at most. -/
def pathLimit : Nat := 4095

/-- The number of bytes of a text in UTF-8. -/
def byteCount (t : Text) : Nat := t.foldr (fun c n => c.utf8Size + n) 0

/-- The path that a name stands for. The empty name stands for none. -/
def path (name : Text) : Except Problem Path :=
  if '\x00' ∈ name then .error .nulInName
  else if name = [] then .error .notFound
  else if pathLimit < byteCount name then .error .nameTooLong
  else .ok (.ofText name)

/-- Takes a step from a place, which must be a directory. -/
def step (d : Disk) (p : Place) (s : Path.Step) : Except Problem Place :=
  match d.entry? p, s with
  | none, _ => .error .notFound
  | some .directory, .down name =>
      if nameLimit < byteCount name then .error .nameTooLong else .ok (p.child name)
  | some .directory, s => .ok (p.step s)
  | some _, _ => .error .notDirectory

/-- Takes steps from a place. -/
def walk (d : Disk) : Place → List Path.Step → Except Problem Place
  | p, [] => .ok p
  | p, s :: ss => (d.step p s).bind fun q => d.walk q ss

/-- The place that a name leads to, and what stands there. -/
def find (d : Disk) (name : Text) : Except Problem (Place × Entry) := do
  let p ← path name
  let q ← d.walk p.start p.steps
  match d.entry? q with
  | none => .error .notFound
  | some e => if p.toDirectory ∧ e ≠ .directory then .error .notDirectory else .ok (q, e)

/-- Whether a name leads to something that is there. -/
def has (d : Disk) (name : Text) : Bool := (d.find name).isOk

/-! ## Reading and writing -/

/-- Reads the file of a name, with every line end as a line feed. -/
def readText (d : Disk) (name : Text) : Except Problem Text := do
  match (← d.find name).2 with
  | .directory => .error .isDirectory
  | .sink => .ok []
  | .file content =>
      match content.text? with
      | some t => .ok (Text.unifyLineEnds t)
      | none => .error .notText

/-- Puts a file in the place of what stands there. -/
def put (d : Disk) (p : Place) (content : Content) : Disk :=
  ⟨d.entries.filter (·.1 ≠ p) ++ [(p, .file content)]⟩

/-- Adds to the end of a file that is there. -/
def append (d : Disk) (name : Text) (added : Content) : Except Problem Disk := do
  match ← d.find name with
  | (p, .file content) => .ok (d.put p (content ++ added))
  | (_, .sink) => .ok d
  | (_, .directory) => .error .isDirectory

/-- Makes a file where none is. A name that ends in a slash cannot be the name of a file. -/
def create (d : Disk) (name : Text) (content : Content) : Except Problem Disk := do
  let p ← path name
  let directory ← d.walk p.start p.steps.dropLast
  match p.steps.getLast? with
  | some (.down last) =>
      let q ← d.step directory .stay
      if p.toDirectory then .error .isDirectory
      else return d.put (← d.step q (.down last)) content
  | some s =>
      let _ ← d.step directory s
      .error .isDirectory
  | none => .error .isDirectory

/-- What is put behind the name of a file to name a working copy of it. -/
def workingSuffix : Text := "-00000.tmp"

/-- Changes the content of a file by way of a working copy beside it. Where there is no file, or
its copy cannot be made, nothing is changed. -/
def modify (d : Disk) (name : Text) (change : Content → Content) : Disk :=
  match d.find name, d.create (name ++ workingSuffix) [] with
  | .ok (p, .file content), .ok _ => d.put p (change content)
  | _, _ => d

end Disk

end MiniLisp
