import MiniLisp.Evaluation
import MiniLisp.Reader
import MiniLisp.Trouble

set_option autoImplicit false

/-! # Programs

A text is a program: its expressions are evaluated in order, in one environment. Text that is
typed in (`runText`) goes on after a failure, with what the failing expression has changed; a file
that is loaded (`loadFile`) ends at the first failure. In both a failure to read ends the text. Its
expressions before that are evaluated.
-/

namespace MiniLisp

/-- What running a text comes to: a result for each of its expressions, the kind of the value
that ended it if one was no expression, the environment that is left, and the events. -/
structure Transcript (α : Type) where
  elements : List (Except Failure α)
  escaped : Option Foreign.Kind
  env : Environment
  events : List Event

/-- Evaluates expressions in order, going on after failures, and views each value. -/
def runExprs {α : Type} (view : Expr → Except Foreign α) :
    List Expr → Environment → Transcript α
  | [], env => ⟨[], none, env, []⟩
  | e :: es, env =>
      let r := evaluate e env
      match r.result with
      | .error (.notExpression k) => ⟨[], some k, r.env, r.events⟩
      | .error (.failure f) =>
          let t := runExprs view es r.env
          ⟨.error f :: t.elements, t.escaped, t.env, r.events ++ t.events⟩
      | .ok v =>
          match view v with
          | .error w => ⟨[], some w.kind, r.env, r.events⟩
          | .ok a =>
              let t := runExprs view es r.env
              ⟨.ok a :: t.elements, t.escaped, t.env, r.events ++ t.events⟩

/-- Runs a text and views each value. The failure to read it is the last result. -/
def runViewing {α : Type} (view : Expr → Except Foreign α) (t : Text) (env : Environment) :
    Transcript α :=
  let reading := readText env.maxDepth t
  let transcript := runExprs view reading.exprs env
  match transcript.escaped, reading.refused with
  | none, some c =>
      { transcript with elements := transcript.elements ++ [.error (.ofCause c)] }
  | _, _ => transcript

/-- Runs a text. -/
def runText (t : Text) (env : Environment) : Transcript Expr := runViewing .ok t env

/-- A value with its text. -/
def viewShown (v : Expr) : Except Foreign (Expr × Text) := v.shown.map fun t => (v, t)

/-- Runs a text whose values are shown. -/
def runShown (t : Text) (env : Environment) : Transcript (Expr × Text) :=
  runViewing viewShown t env

/-- The value of the first expression of a text. A text without an expression has none. -/
def readEvaluate (t : Text) : Eval Expr :=
  match readFirst t with
  | .ok (some e) => evaluate e
  | .ok none => Eval.raise (.notExpression .nothing)
  | .error c => Eval.fail c

/-! ## Loading files -/

/-- Evaluates expressions in order, up to the first failure. -/
def evaluateAll : List Expr → Eval Unit
  | [] => pure ()
  | e :: es => do
      let _ ← evaluate e
      evaluateAll es

/-- Evaluates the expressions of a text, up to the first failure. -/
def evaluateText (t : Text) : Eval Unit := do
  let env ← Eval.environment
  let reading := readText env.maxDepth t
  evaluateAll reading.exprs
  match reading.refused with
  | none => pure ()
  | some c => Eval.fail c

/-- Loads a file. -/
def loadFile (d : Disk) (name : Text) (env : Environment) : Run Trouble Unit :=
  match d.readText name with
  | .error p => ⟨.error (.disk p), env, []⟩
  | .ok t =>
      let r := evaluateText t env
      ⟨r.result.mapError fun f => .fault (f.addNote (.whileLoading name)), r.env, r.events⟩

/-- Loads files in order, up to the first failure. -/
def loadFiles (d : Disk) : List Text → Environment → Run Trouble Unit
  | [], env => ⟨.ok (), env, []⟩
  | name :: names, env =>
      let r := loadFile d name env
      match r.result with
      | .error t => ⟨.error t, r.env, r.events⟩
      | .ok () =>
          let s := loadFiles d names r.env
          ⟨s.result, s.env, r.events ++ s.events⟩

end MiniLisp
