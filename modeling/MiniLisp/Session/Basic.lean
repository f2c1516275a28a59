import MiniLisp.Position
import MiniLisp.Program
import MiniLisp.Session.Completion
import MiniLisp.Session.History

set_option autoImplicit false

/-! # Sessions

A session answers one line after the other. A line is stripped of blanks at its ends. If it then
starts with a slash it is a command of the session; else, if anything is left, it is entered in
the history, which is saved at once, and run as a program whose values and failures are printed.
-/

namespace MiniLisp

/-- The state of a session: the environment, the history, the files, and the names that the
latest completion chooses from. -/
structure Session where
  env : Environment
  history : History
  disk : Disk
  candidates : List Text

/-- What an action of a session comes to: its result, the session it leaves, what it prints, and
its events. -/
structure Turn (α : Type) where
  result : Except Trouble α
  session : Session
  output : Text
  events : List Event

/-- A command of a session: to end it, to show the number of frames and the names that are bound,
or to show the names of the built-in forms. -/
inductive Command where
  | exit
  | environment
  | forms
  | unknown (name : Text)
  deriving DecidableEq

/-- The command of a name. -/
def Command.ofName (name : Text) : Command :=
  if name = ("exit" : Text) then .exit
  else if name = ("env" : Text) then .environment
  else if name = ("builtins" : Text) then .forms
  else .unknown name

namespace Session

/-- A session that has not read its history. -/
def ofEnvironment (env : Environment) (historyName : Text) (d : Disk) : Session :=
  ⟨env, .ofName historyName, d, []⟩

/-- What is printed when a line is asked for. -/
def prompt : Text := "> "

/-- Whether a stripped line is a command. -/
def isCommand (line : Text) : Bool := line.head? = some '/'

/-- Whether a stripped line is entered in the history. -/
def isRecorded (line : Text) : Bool := !line.isEmpty && !isCommand line

/-- A session whose history has been read. -/
def restoreHistory (s : Session) : Except Disk.Problem Session :=
  (s.history.restore s.disk).map fun h => { s with history := h }

/-- Saves the history. -/
def storeHistory (s : Session) : Except Disk.Problem Session :=
  (s.history.store s.disk).map fun (h, d) => { s with history := h, disk := d }

/-- Enters a stripped line in the history and saves it. A line that holds a NUL is not entered;
where an entry cannot be saved, it stays in memory. -/
def enter (s : Session) (line : Text) : Turn Unit :=
  if !isRecorded line then ⟨.ok (), s, [], []⟩
  else if '\x00' ∈ line then ⟨.error .nulInEntry, s, [], []⟩
  else
    let s := { s with history := s.history.add line }
    match s.storeHistory with
    | .error p => ⟨.error (.disk p), s, [], []⟩
    | .ok s => ⟨.ok (), s, [], []⟩

/-- Asks for a line and takes it in. -/
def takeLine (s : Session) : Terminal.Request → Turn Text
  | .error p => ⟨.error (.terminal p), s, prompt, []⟩
  | .ok line =>
      let line := Text.strip line
      let t := s.enter line
      ⟨t.result.map fun _ => line, t.session, prompt, []⟩

/-- Carries a command out; the result says whether the session goes on. -/
def obey (s : Session) : Command → Turn Bool
  | .exit => ⟨.ok false, s, [], []⟩
  | .environment =>
      ⟨.ok true, s, Text.ofNat s.env.scopes.size ++ " frames: " ++
        Text.joinWith " " s.env.scopes.names ++ ['\n'], []⟩
  | .forms => ⟨.ok true, s, Text.joinWith " " Builtin.names ++ ['\n'], []⟩
  | .unknown name => ⟨.ok true, s, "Unknown command /" ++ name ++ ['\n'], []⟩

/-- The line that is printed for a result. -/
def resultLine : Except Failure (Expr × Text) → Text
  | .ok (_, shown) => shown ++ ['\n']
  | .error f => "encountered error: " ++ f.cause.message ++ ['\n']

/-- Runs a text and prints the results. -/
def runLine (s : Session) (t : Text) : Turn Unit :=
  let r := runShown t s.env
  ⟨match r.escaped with
    | none => .ok ()
    | some k => .error (.fault (.notExpression k)),
    { s with env := r.env }, r.elements.flatMap resultLine, r.events⟩

/-- Deals with a stripped line that has been taken in. -/
def answer (s : Session) (line : Text) : Turn Bool :=
  if isCommand line then s.obey (.ofName line.tail)
  else if line.isEmpty then ⟨.ok true, s, [], []⟩
  else
    let t := s.runLine line
    ⟨t.result.map fun _ => true, t.session, t.output, t.events⟩

/-- Asks for a line and answers it; the result says whether the session goes on. -/
def respond (s : Session) (request : Terminal.Request) : Turn Bool :=
  let t := s.takeLine request
  match t.result with
  | .error e => ⟨.error e, t.session, t.output, t.events⟩
  | .ok line =>
      let u := t.session.answer line
      ⟨u.result, u.session, t.output ++ u.output, t.events ++ u.events⟩

/-- The `k`-th completion of a text, if there are so many. The names to choose from are those at
the time when the first completion is asked for; a negative `k` counts from the last of them. -/
def completion (s : Session) (start : Text) (k : Int) :
    Except Position.Problem (Option Text) × Session :=
  let s := if k = 0 then { s with candidates := completions s.env.scopes.names start } else s
  (if k < s.candidates.length then (Position.item s.candidates k).map some else .ok none, s)

end Session

end MiniLisp
