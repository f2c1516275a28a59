import MiniLisp.CommandLine.Launch

set_option autoImplicit false

/-! # The program

Reading the files that the arguments name and the lines of standard input, and writing what the
session prints and the history file. What is done with them is decided in
`CommandLine/Launch.lean`, `Session/Basic.lean` and `Session/Loop.lean`.
-/

namespace MiniLisp.Terminal

/-- What stands at a place. What is there and cannot be read is a directory. -/
def entryAt? (p : Place) : IO (Option Disk.Entry) := do
  try return some (.file (.ofBytes (← IO.FS.readBinFile (String.ofList p.text))))
  catch
    | .noFileOrDirectory .. => return none
    | _ => return some .directory

/-- What stands at the places that names lead to, and on the way to them. -/
def diskOf (names : List Text) : IO Disk := do
  let onTheWay := names.flatMap fun name =>
    let p := Path.ofText name
    (List.range (p.steps.length + 1)).map fun n => { p with steps := p.steps.take n }.place
  let entries ← onTheWay.eraseDups.filterMapM fun p => do
    return (← entryAt? p).map fun e => (p, e)
  return ⟨entries⟩

/-- Prints a text. -/
def put (t : Text) : IO Unit := do
  let out ← IO.getStdout
  out.putStr (String.ofList t)
  out.flush

/-- Prints a line on standard error. -/
def putError (t : Text) : IO Unit := IO.eprintln (String.ofList t)

/-- What is said of trouble. -/
def troubleText : Trouble → Text
  | .fault (.failure f) =>
      Text.joinWith "\n" (f.cause.message :: f.notes.map Note.text)
  | .fault (.notExpression k) => k.message
  | .disk p => p.message
  | .nulInEntry => Trouble.nulInEntryMessage
  | .terminal .endOfInput => "end of input"
  | .terminal .interrupt => "interrupted"
  | .terminal (.invalid m) => m
  | .terminal (.language m) => m

/-- Asks standard input for a line. -/
def request : IO Request := do
  let line ← (← IO.getStdin).getLine
  if line.isEmpty then return .error .endOfInput
  let t := line.toList
  return .ok (if t.getLast? = some '\n' then t.dropLast else t)

/-- Writes the history file if it has changed. -/
def writeHistory (name : Text) (before after : Disk) : IO Unit := do
  match after.find name with
  | .ok (p, .file content) =>
      if before.entry? p ≠ some (.file content) then
        IO.FS.writeBinFile (String.ofList name) content.toBytes.toByteArray
  | _ => return ()

/-- Prints the lines of the debugging log. -/
def putLog (debug : Bool) (events : List Event) : IO Unit := do
  if debug then (Event.log events).forM putError

/-- Answers lines until the session ends. -/
partial def converse (debug : Bool) (s : Session) : IO Unit := do
  put Session.prompt
  let r ← request
  let before ← diskOf [s.history.name]
  let t := { s with disk := before }.respond r
  writeHistory s.history.name before t.session.disk
  putLog debug t.events
  put (t.output.drop Session.prompt.length)
  match t.goesOn? with
  | none => put ['\n']
  | some reported =>
      reported.forM fun e => putError (troubleText e)
      converse debug t.session

/-- Loads the files and answers lines. -/
def runWith (o : Options) : IO UInt32 := do
  let d ← diskOf ((History.ofName o.history).name :: o.files)
  let loaded := loadFiles d o.files Launch.freshEnvironment
  putLog o.debug loaded.events
  match Launch.afterLoading loaded fun env =>
      (Session.ofEnvironment env o.history d).restoreHistory with
  | .error t =>
      putError (troubleText t)
      return 1
  | .ok s =>
      converse o.debug s
      return 0

end MiniLisp.Terminal

open MiniLisp

/-- Evaluates files and then what is typed in. -/
def main (arguments : List String) : IO UInt32 := do
  match Options.parse (arguments.map String.toList) with
  | .run o => Terminal.runWith o
  | .help =>
      Terminal.put Options.helpText
      return 0
  | .misuse =>
      Terminal.putError "usage: sexpr [-h] [--history HISTORY] [--debug] [files ...]"
      return 2
