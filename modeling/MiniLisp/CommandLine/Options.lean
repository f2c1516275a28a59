import MiniLisp.Text.Basic
import MiniLisp.Text.Digits

set_option autoImplicit false

/-! # Command line options

The arguments of the program are the files to load and the options

    --history PATH    --debug    --help (or -h)

A long option may be shortened as far as no other option starts the same way, and its value may
follow it after `=`. The files stand together; options stand before or after them. An argument
`--` ends the options: what follows are files. An argument that looks like a negative number or
holds a space is a file even if it starts with a dash.
-/

namespace MiniLisp

/-- What is asked of the program. -/
structure Options where
  files : List Text
  history : Text
  debug : Bool
  deriving DecidableEq

/-- What the arguments come to: a run with options, a request for help, or a misuse. -/
inductive Invocation where
  | run (o : Options)
  | help
  | misuse
  deriving DecidableEq

namespace Options

/-- An option. -/
inductive Flag where
  | help
  | history
  | debug
  deriving DecidableEq

/-- The long names of the options. -/
def flagNames : List (Text × Flag) :=
  [("--help".toList, .help), ("--history".toList, .history), ("--debug".toList, .debug)]

/-- What an argument can be by itself. -/
inductive Word where
  | file (t : Text)
  | separator
  | flag (f : Flag) (value : Option Text)
  | ambiguous
  | unknown
  deriving DecidableEq

/-- Whether a text looks like a negative number: a minus sign and digits of any script, with a
point before the last of them at most. A line end may follow. -/
def looksNegative (t : Text) : Bool :=
  match t with
  | '-' :: r =>
      let r := if r.getLast? = some '\n' then r.dropLast else r
      let digits := r.takeWhile Text.isDecimalDigit
      match r.dropWhile Text.isDecimalDigit with
      | [] => !digits.isEmpty
      | '.' :: fraction => !fraction.isEmpty && fraction.all Text.isDecimalDigit
      | _ => false
  | _ => false

/-- Splits an argument at its first equals sign, if it has one. -/
def splitValue (t : Text) : Text × Option Text :=
  match t.dropWhile (· ≠ '=') with
  | [] => (t, none)
  | _ :: value => (t.takeWhile (· ≠ '='), some value)

/-- What an argument that starts with two dashes is: an option by any name that starts like
it. -/
def longOption (t : Text) : Word :=
  let (name, value) := splitValue t
  match flagNames.filter fun n => name.isPrefixOf n.1 with
  | [(_, f)] => .flag f value
  | [] => if ' ' ∈ t then .file t else .unknown
  | _ => .ambiguous

/-- What an argument that starts with one dash is. Letters that stand together behind it are
options one by one, and the first of them may be set off by an equals sign from those that
follow; but `h` is the only letter, and it takes no value. -/
def shortOption (t : Text) : Word :=
  match t with
  | '-' :: 'h' :: '=' :: letters =>
      .flag .help (if letters ≠ [] ∧ letters.all (· = 'h') then none else some letters)
  | '-' :: 'h' :: letters =>
      .flag .help (if letters.all (· = 'h') then none else some letters)
  | _ => if looksNegative t || ' ' ∈ t then .file t else .unknown

/-- What an argument is by itself. -/
def Word.ofArgument (t : Text) : Word :=
  if t.head? ≠ some '-' ∨ t = ['-'] then .file t
  else if ("--" : Text).isPrefixOf t then longOption t
  else shortOption t

/-- What each argument is. -/
def classify : List Text → List Word
  | [] => []
  | t :: ts =>
      if t = ("--" : Text) then .separator :: ts.map .file
      else Word.ofArgument t :: classify ts

/-- Where the files are: none has been met, they are being read, or an option has ended them. -/
inductive Group where
  | none
  | current
  | ended
  deriving DecidableEq

/-- What has been read of the arguments. -/
structure Progress where
  options : Options
  group : Group
  surplus : Bool

/-- Before an option: the files have ended, if there were any. -/
def Progress.endFiles (p : Progress) : Progress :=
  { p with group := if p.group = .current then .ended else p.group }

/-- Reads more files, which must stand with those before. -/
def Progress.addFiles (p : Progress) (files : List Text) : Progress :=
  if p.group = .ended then { p with surplus := true }
  else { p with group := .current, options := { p.options with files := p.options.files ++ files } }

/-- Takes a path for the history; it replaces the one before. -/
def Progress.setHistory (p : Progress) (path : Text) : Progress :=
  { p with options := { p.options with history := path } }

/-- The path that a value behind an equals sign names. Two dashes name none: they are dropped from
a value as they are from among the files. -/
def pathOfValue (value : Text) : Text :=
  if value = ("--" : Text) then [] else value

/-- Reads the arguments one after the other. -/
def readWords : List Word → Progress → Invocation
  | [], p => if p.surplus then .misuse else .run p.options
  | .file t :: ws, p => readWords ws (p.addFiles [t])
  | .separator :: ws, p => readWords ws (p.addFiles [])
  | .unknown :: ws, p => readWords ws { p.endFiles with surplus := true }
  | .flag .help none :: _, _ => .help
  | .flag .debug none :: ws, p =>
      readWords ws { p.endFiles with options := { p.options with debug := true } }
  | .flag .history (some value) :: ws, p =>
      readWords ws (p.endFiles.setHistory (pathOfValue value))
  | .flag .history none :: .file path :: ws, p => readWords ws (p.endFiles.setHistory path)
  | _, _ => .misuse

/-- Reads the arguments. An empty history path stands for the default one. -/
def parse (arguments : List Text) : Invocation :=
  let ws := classify arguments
  if .ambiguous ∈ ws then .misuse else readWords ws ⟨⟨[], [], false⟩, .none, false⟩

/-- What a request for help prints. -/
def helpText : Text :=
  "usage: sexpr [-h] [--history HISTORY] [--debug] [files ...]\n\n" ++
  "Interactive s-expression evaluator\n\n" ++
  "positional arguments:\n" ++
  "  files              files evaluated before the prompt opens\n\n" ++
  "options:\n" ++
  "  -h, --help         show this help message and exit\n" ++
  "  --history HISTORY  readline history file\n" ++
  "  --debug            log dispatch and scope changes\n"

end Options

end MiniLisp
