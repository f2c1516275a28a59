import MiniLisp.CommandLine.Options
import MiniLisp.Session.Loop

set_option autoImplicit false

/-! # Launching the program

The program loads its files into one environment, in order, and then answers requests for lines.
A file that cannot be loaded ends it before the first request.
-/

namespace MiniLisp

/-- How the program ends. -/
inductive Ending where
  | finished
  | exited (code : Nat)
  | failed (t : Trouble)

/-- What a run of the program comes to: its end, what it printed, the trouble that the loop
reported, the files it leaves, and its debugging log. -/
structure Launch where
  ending : Ending
  output : Text
  reported : List Trouble
  disk : Disk
  log : List Text

namespace Launch

/-- The environment in which the program starts. -/
def freshEnvironment : Environment := .ofRoot .empty defaultLimit

/-- What comes after files have been loaded, in the environment that they leave, unless one of them
could not be loaded. -/
def afterLoading {α : Type} (loaded : Run Trouble Unit)
    (proceed : Environment → Except Disk.Problem α) : Except Trouble α :=
  match loaded.result with
  | .error t => .error t
  | .ok () => (proceed loaded.env).mapError .disk

/-- A session behind files that have been loaded. -/
def ofLoaded (loaded : Run Trouble Unit) (historyName : Text) (requests : List Terminal.Request)
    (d : Disk) : Launch :=
  match afterLoading loaded fun env =>
      (Session.ofEnvironment env historyName d).interact requests with
  | .error t => ⟨.failed t, [], [], d, Event.log loaded.events⟩
  | .ok t =>
      ⟨.finished, t.output, t.reported, t.session.disk, Event.log (loaded.events ++ t.events)⟩

/-- A session in an environment, where the events so far are given. -/
def ofSession (env : Environment) (events : List Event) (historyName : Text)
    (requests : List Terminal.Request) (d : Disk) : Launch :=
  ofLoaded ⟨.ok (), env, events⟩ historyName requests d

/-- A run with options. The log is empty unless it is asked for. -/
def ofOptions (o : Options) (requests : List Terminal.Request) (d : Disk) : Launch :=
  let l := ofLoaded (loadFiles d o.files freshEnvironment) o.history requests d
  if o.debug then l else { l with log := [] }

/-- A run with arguments. -/
def ofArguments (arguments : List Text) (requests : List Terminal.Request) (d : Disk) : Launch :=
  match Options.parse arguments with
  | .run o => ofOptions o requests d
  | .help => ⟨.exited 0, Options.helpText, [], d, []⟩
  | .misuse => ⟨.exited 2, [], [], d, []⟩

end Launch

end MiniLisp
