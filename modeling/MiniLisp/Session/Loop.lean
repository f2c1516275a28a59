import MiniLisp.Session.Basic

set_option autoImplicit false

/-! # The interactive loop

The loop answers requests for lines, one after the other, until the input ends, the user
interrupts, or a command ends the session. Any other trouble is reported, and the loop goes on.
-/

namespace MiniLisp

/-- What a loop comes to: the session it leaves, what it printed, the trouble it reported, and its
events. -/
structure Dialogue where
  session : Session
  output : Text
  reported : List Trouble
  events : List Event

/-- The trouble to report before the loop goes on, if it goes on after a turn. -/
def Turn.goesOn? (t : Turn Bool) : Option (List Trouble) :=
  match t.result with
  | .ok false => none
  | .error (.terminal .endOfInput) | .error (.terminal .interrupt) => none
  | .ok true => some []
  | .error e => some [e]

namespace Session

/-- Answers requests; after the last one the input is at its end. -/
def loop : List Terminal.Request → Session → Dialogue
  | [], s => ⟨s, prompt, [], []⟩
  | r :: rs, s =>
      let t := s.respond r
      match t.goesOn? with
      | none => ⟨t.session, t.output, [], t.events⟩
      | some reported =>
          let d := loop rs t.session
          ⟨d.session, t.output ++ d.output, reported ++ d.reported, t.events ++ d.events⟩

/-- Reads the history of a session and answers requests until it ends, with a line end behind the
last prompt. -/
def interact (s : Session) (requests : List Terminal.Request) : Except Disk.Problem Dialogue :=
  s.restoreHistory.map fun s =>
    let d := loop requests s
    { d with output := d.output ++ ['\n'] }

end Session

end MiniLisp
