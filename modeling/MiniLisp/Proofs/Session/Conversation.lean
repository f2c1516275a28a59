import MiniLisp.Proofs.Program.Failures
import MiniLisp.Proofs.Session.TopLevel

set_option autoImplicit false

/-! # A session is the fold of its requests

A session answers its requests one after the other, up to the first that ends it (`handled`). What a
request comes to (`Session.reply`) depends on the session that the requests before it have left, and
on nothing else; the whole conversation is the fold of the replies (`interact_eq_fold`). A line is
run only if it is an entry of the history that has been saved (`Session.Passes`), and no other
request changes the environment.

In an environment of expressions of the language every value of a run has a text. Otherwise a value
without one could end a run in the middle, and its effects would stay without a line of output.
-/

namespace MiniLisp

open Transcript

/-! ## Shown values -/

namespace Transcript

variable {α β : Type}

/-- The transcript with other values. -/
def map (f : α → β) (t : Transcript α) : Transcript β :=
  ⟨t.elements.map (Except.map f), t.escaped, t.env, t.events⟩

theorem map_followedBy (f : α → β) (t : Transcript α) (next : Environment → Transcript α) :
    (t.followedBy next).map f = (t.map f).followedBy fun env => (next env).map f := by
  cases h : t.escaped with
  | some k => rw [followedBy_of_escaped h, followedBy_of_escaped (t := t.map f) h]
  | none =>
      rw [followedBy_of_not_escaped h, followedBy_of_not_escaped (t := t.map f) h]
      simp [map]

end Transcript

/-- A value with its displayed text. -/
def Expr.withText (v : Expr) : Expr × Text := (v, v.display)

theorem Expr.Proper.viewShown_eq {v : Expr} (hv : v.Proper) : viewShown v = .ok v.withText := by
  have hshown : v.shown = .ok v.display := by
    rw [Expr.shown, show v.foreign? = none from hv]
  rw [viewShown, hshown]
  rfl

theorem runExprs_viewShown {es : List Expr} (hes : ∀ e ∈ es, e.Proper) {env : Environment}
    (henv : env.Proper) :
    runExprs viewShown es env = (runExprs .ok es env).map Expr.withText := by
  induction es generalizing env with
  | nil => rfl
  | cons e es ih =>
      obtain ⟨he, hes⟩ := List.forall_mem_cons.mp hes
      obtain ⟨houtcome, hleft⟩ := (properVocabulary.evaluate he henv).staysProper
      rcases houtcome with ⟨v, hresult, hv⟩ | ⟨f, hresult⟩
      · simp only [runExprs, hresult, hv.viewShown_eq, ih hes hleft]
        rfl
      · simp only [runExprs, hresult, ih hes hleft]
        rfl

/-- Where all values are expressions of the language, showing the values of a text changes nothing
else about its run, and no value ends it. -/
theorem runShown_eq (t : Text) {env : Environment} (henv : env.Proper) :
    runShown t env = (runText t env).map Expr.withText := by
  have hes : ∀ e ∈ (readText env.maxDepth t).exprs, e.Proper := fun e he =>
    proper_of_mem_readText he
  rw [runShown, runViewing_eq, runText_eq, map_followedBy, runExprs_viewShown hes henv]
  congr 1
  funext env'
  simp [refusal, Transcript.map, Except.map]

theorem escaped_runText (t : Text) {env : Environment} (henv : env.Proper) :
    (runText t env).escaped = none :=
  Option.eq_none_iff_forall_ne_some.mpr (meets_runText_proper t henv).escaped

/-! ## Requests -/

/-- Whether a request without a line ends a session. -/
def Terminal.Problem.stops : Terminal.Problem → Bool
  | .endOfInput | .interrupt => true
  | .invalid _ | .language _ => false

/-- Whether a request ends a session. -/
def Terminal.ends : Terminal.Request → Bool
  | .error p => p.stops
  | .ok line => Text.strip line = ("/exit" : Text)

theorem Terminal.ends_ok_iff {line : Text} :
    ends (.ok line) ↔ Text.strip line = ("/exit" : Text) :=
  decide_eq_true_iff

/-- The requests that a session answers: those up to the first that ends it. After the last one the
input is at its end. -/
def handled : List Terminal.Request → List Terminal.Request
  | [] => [.error .endOfInput]
  | r :: rs => if Terminal.ends r then [r] else r :: handled rs

theorem handled_begins (requests : List Terminal.Request) :
    handled requests <+: requests ++ [.error .endOfInput] := by
  induction requests with
  | nil => exact List.prefix_refl _
  | cons r rs ih =>
      rw [handled]
      split
      · simp
      · exact (List.prefix_cons_inj r).mpr ih

/-- The last request that is answered ends the session, and no other does. -/
theorem handled_split (requests : List Terminal.Request) :
    ∃ first last, handled requests = first ++ [last] ∧ Terminal.ends last ∧
      ∀ r ∈ first, ¬ Terminal.ends r := by
  induction requests with
  | nil => exact ⟨[], .error .endOfInput, rfl, rfl, by simp⟩
  | cons r rs ih =>
      rw [handled]
      by_cases hr : Terminal.ends r
      · rw [if_pos hr]
        exact ⟨[], r, rfl, hr, by simp⟩
      · rw [if_neg hr]
        obtain ⟨first, last, heq, hlast, hfirst⟩ := ih
        refine ⟨r :: first, last, ?_, hlast, List.forall_mem_cons.mpr ⟨hr, hfirst⟩⟩
        rw [heq, List.cons_append]

/-- Requests behind one that ends the session are not asked for. -/
theorem handled_append {requests : List Terminal.Request} (h : ∃ r ∈ requests, Terminal.ends r)
    (more : List Terminal.Request) : handled (requests ++ more) = handled requests := by
  induction requests with
  | nil => simp at h
  | cons r rs ih =>
      rw [List.cons_append, handled, handled]
      by_cases hr : Terminal.ends r
      · rw [if_pos hr, if_pos hr]
      · rw [if_neg hr, if_neg hr]
        obtain ⟨q, hq, hends⟩ := h
        rcases List.mem_cons.mp hq with rfl | hq
        · contradiction
        · rw [ih ⟨q, hq, hends⟩]

/-! ## Replies -/

/-- The line that is printed for what an expression comes to. -/
def outcomeLine : Except Failure Expr → Text
  | .ok v => v.display ++ ['\n']
  | .error f => "encountered error: " ++ f.cause.message ++ ['\n']

namespace Dialogue

/-- A conversation in which nothing has been asked for. -/
def start (s : Session) : Dialogue := ⟨s, [], [], []⟩

/-- One conversation and then another. -/
def followedBy (d e : Dialogue) : Dialogue :=
  ⟨e.session, d.output ++ e.output, d.reported ++ e.reported, d.events ++ e.events⟩

theorem start_followedBy (s : Session) (d : Dialogue) : (start s).followedBy d = d := rfl

theorem followedBy_assoc (d e f : Dialogue) :
    (d.followedBy e).followedBy f = d.followedBy (e.followedBy f) := by
  simp [followedBy, List.append_assoc]

end Dialogue

theorem Command.ofName_eq_exit_iff {name : Text} :
    ofName name = .exit ↔ name = ("exit" : Text) := by
  unfold ofName
  by_cases hexit : name = ("exit" : Text)
  · rw [if_pos hexit]
    exact ⟨fun _ => hexit, fun _ => rfl⟩
  · rw [if_neg hexit]
    constructor
    · intro h
      split at h
      · cases h
      · split at h <;> cases h
    · intro h
      contradiction

namespace Session

/-- Whether a request has a text run: a stripped line that is neither empty nor a command, and of
which the entry in the history can be saved. -/
def Passes (s : Session) (r : Terminal.Request) (t : Text) : Prop :=
  ∃ line, r = .ok line ∧ t = Text.strip line ∧ t ≠ [] ∧ t.head? ≠ some '/' ∧
    (s.enter t).result = .ok ()

/-- The trouble that a request makes and the session survives. -/
def trouble (s : Session) : Terminal.Request → List Trouble
  | .error p => if p.stops then [] else [.terminal p]
  | .ok line =>
      match (s.enter (Text.strip line)).result with
      | .error e => [e]
      | .ok () => []

/-- What a request comes to in a session. -/
def reply (s : Session) (r : Terminal.Request) : Dialogue :=
  match r with
  | .error _ => ⟨s, prompt, s.trouble r, []⟩
  | .ok line =>
      let t := Text.strip line
      if isCommand t then ⟨s, prompt ++ (s.obey (.ofName t.tail)).output, [], []⟩
      else if t.isEmpty then ⟨s, prompt, [], []⟩
      else
        let entered := s.enter t
        match entered.result with
        | .error e => ⟨entered.session, prompt, [e], []⟩
        | .ok () =>
            let run := runText t s.env
            ⟨{ entered.session with env := run.env },
              prompt ++ run.elements.flatMap outcomeLine, [], run.events⟩

/-- The conversation about requests: each is replied to in the session that those before it have
left. -/
def converse (s : Session) (requests : List Terminal.Request) : Dialogue :=
  requests.foldl (fun d r => d.followedBy (d.session.reply r)) (.start s)

variable {s : Session}

/-! ## One request -/

theorem enter_of_not_recorded {t : Text} (h : isRecorded t = false) :
    s.enter t = ⟨.ok (), s, [], []⟩ := by
  rw [enter, h]
  rfl

/-- Entering a line fails for reasons of its own, never because the session is to end. -/
theorem enter_error {t : Text} {e : Trouble} (h : (s.enter t).result = .error e)
    (p : Terminal.Problem) : e ≠ .terminal p := by
  rintro rfl
  unfold enter at h
  split at h
  · cases h
  · split at h
    · cases h
    · dsimp only at h
      split at h
      · cases h
      · cases h

theorem runLine_eq (t : Text) (hs : s.env.Proper) :
    s.runLine t =
      ⟨.ok (), { s with env := (runText t s.env).env },
        (runText t s.env).elements.flatMap outcomeLine, (runText t s.env).events⟩ := by
  have hescaped : (runText t s.env).escaped = none := escaped_runText t hs
  have hline (x : Except Failure Expr) : resultLine (x.map Expr.withText) = outcomeLine x := by
    cases x with
    | ok v => rfl
    | error f => rfl
  rw [runLine, runShown_eq t hs]
  simp [Transcript.map, hescaped, List.flatMap_map, hline]

/-- Trouble for which the loop does not stop is reported. -/
theorem goesOn?_error {e : Trouble} (he : ∀ p, e = .terminal p → ¬ p.stops) (s : Session)
    (output : Text) (events : List Event) :
    Turn.goesOn? ⟨.error e, s, output, events⟩ = some [e] := by
  cases e with
  | terminal p =>
      cases p with
      | endOfInput | interrupt => exact absurd rfl (he _ rfl)
      | invalid m | language m => rfl
  | _ => rfl

/-- A session answers a request with its reply, and the loop goes on unless the request ends it. -/
def Replies (s : Session) (r : Terminal.Request) : Prop :=
  (∃ result,
    s.respond r = ⟨result, (s.reply r).session, (s.reply r).output, (s.reply r).events⟩) ∧
  (s.respond r).goesOn? = if Terminal.ends r then none else some (s.reply r).reported

theorem replies_error (s : Session) (p : Terminal.Problem) : s.Replies (.error p) := by
  refine ⟨⟨_, rfl⟩, ?_⟩
  cases p with
  | _ => rfl

theorem respond_of_refused {line : Text} {e : Trouble}
    (h : (s.enter (Text.strip line)).result = .error e) :
    s.respond (.ok line) = ⟨.error e, (s.enter (Text.strip line)).session, prompt, []⟩ := by
  simp only [respond, takeLine, h, Except.map]

theorem respond_of_entered {line : Text} (h : (s.enter (Text.strip line)).result = .ok ()) :
    s.respond (.ok line) =
      let answer := (s.enter (Text.strip line)).session.answer (Text.strip line)
      ⟨answer.result, answer.session, prompt ++ answer.output, answer.events⟩ := by
  simp only [respond, takeLine, h, Except.map, List.nil_append]

theorem obey_eq (s : Session) (c : Command) :
    s.obey c = ⟨.ok (decide (c ≠ .exit)), s, (s.obey c).output, []⟩ := by
  cases c with
  | _ => rfl

theorem reply_command {line name : Text} (h : Text.strip line = '/' :: name) :
    s.reply (.ok line) = ⟨s, prompt ++ (s.obey (.ofName name)).output, [], []⟩ := by
  simp only [reply, h]
  rfl

theorem replies_command (s : Session) {line name : Text} (h : Text.strip line = '/' :: name) :
    s.Replies (.ok line) := by
  have henter : s.enter (Text.strip line) = ⟨.ok (), s, [], []⟩ :=
    enter_of_not_recorded (by rw [h]; rfl)
  have hanswer : s.answer (Text.strip line) = s.obey (.ofName name) := by
    rw [h]
    rfl
  rw [Replies, respond_of_entered (by rw [henter]), henter, hanswer, obey_eq, reply_command h]
  refine ⟨⟨_, rfl⟩, ?_⟩
  have hends : Terminal.ends (.ok line) ↔ Command.ofName name = .exit := by
    rw [Terminal.ends_ok_iff, h, Command.ofName_eq_exit_iff]
    exact List.cons_inj_right '/'
  by_cases hexit : Command.ofName name = .exit
  · rw [hends.mpr hexit, hexit]
    rfl
  · rw [Bool.eq_false_iff.mpr (mt hends.mp hexit), decide_eq_true hexit]
    rfl

/-- Nothing is reported of a request that ends the session. -/
theorem reported_reply_of_ends (s : Session) {r : Terminal.Request} (h : Terminal.ends r) :
    (s.reply r).reported = [] := by
  cases r with
  | error p => exact if_pos h
  | ok line => rw [reply_command (Terminal.ends_ok_iff.mp h)]

theorem reply_empty {line : Text} (h : Text.strip line = []) :
    s.reply (.ok line) = ⟨s, prompt, [], []⟩ := by
  simp only [reply, h]
  rfl

theorem replies_empty (s : Session) {line : Text} (h : Text.strip line = []) :
    s.Replies (.ok line) := by
  have henter : s.enter (Text.strip line) = ⟨.ok (), s, [], []⟩ :=
    enter_of_not_recorded (by rw [h]; rfl)
  have hanswer : s.answer (Text.strip line) = ⟨.ok true, s, [], []⟩ := by
    rw [h]
    rfl
  have hends : Terminal.ends (.ok line) = false := by
    rw [Bool.eq_false_iff, ne_eq, Terminal.ends_ok_iff, h]
    decide
  rw [Replies, respond_of_entered (by rw [henter]), henter, hanswer, reply_empty h, hends]
  exact ⟨⟨_, rfl⟩, rfl⟩

/-- Entering a line leaves the environment alone. -/
theorem env_enter (s : Session) (t : Text) : (s.enter (Text.strip t)).session.env = s.env :=
  (s.takeLine_silent (.ok t)).1

section

variable {line : Text} (hempty : Text.strip line ≠ [])
  (hcommand : (Text.strip line).head? ≠ some '/')

include hempty hcommand

theorem reply_refused {e : Trouble} (h : (s.enter (Text.strip line)).result = .error e) :
    s.reply (.ok line) = ⟨(s.enter (Text.strip line)).session, prompt, [e], []⟩ := by
  simp [reply, isCommand, hcommand, hempty, h]

theorem reply_entered (h : (s.enter (Text.strip line)).result = .ok ()) :
    s.reply (.ok line) =
      ⟨{ (s.enter (Text.strip line)).session with env := (runText (Text.strip line) s.env).env },
        prompt ++ (runText (Text.strip line) s.env).elements.flatMap outcomeLine, [],
        (runText (Text.strip line) s.env).events⟩ := by
  simp [reply, isCommand, hcommand, hempty, h]

theorem answer_entered (hs : s.env.Proper) :
    s.answer (Text.strip line) =
      ⟨.ok true, { s with env := (runText (Text.strip line) s.env).env },
        (runText (Text.strip line) s.env).elements.flatMap outcomeLine,
        (runText (Text.strip line) s.env).events⟩ := by
  simp [answer, isCommand, hcommand, hempty, runLine_eq _ hs, Except.map]

theorem replies_entry (hs : s.env.Proper) : s.Replies (.ok line) := by
  have hends : Terminal.ends (.ok line) = false := by
    rw [Bool.eq_false_iff, ne_eq, Terminal.ends_ok_iff]
    intro h
    rw [h] at hcommand
    exact hcommand rfl
  cases h : (s.enter (Text.strip line)).result with
  | error e =>
      rw [Replies, respond_of_refused h, reply_refused hempty hcommand h, hends]
      exact ⟨⟨_, rfl⟩, goesOn?_error (fun p hp => absurd hp (enter_error h p)) ..⟩
  | ok u =>
      -- the line is run in the session with the new entry, of which the environment is the same
      have henv : (s.enter (Text.strip line)).session.env = s.env := s.env_enter line
      rw [Replies, respond_of_entered h, answer_entered hempty hcommand (henv ▸ hs),
        reply_entered hempty hcommand h, hends, henv]
      exact ⟨⟨_, rfl⟩, rfl⟩

end

/-- **Every request is answered by its reply.** -/
theorem replies_of_proper (hs : s.env.Proper) (r : Terminal.Request) : s.Replies r := by
  cases r with
  | error p => exact s.replies_error p
  | ok line =>
      by_cases hempty : Text.strip line = []
      · exact s.replies_empty hempty
      · by_cases hcommand : (Text.strip line).head? = some '/'
        · obtain ⟨name, h⟩ := List.head?_eq_some_iff.mp hcommand
          exact s.replies_command h
        · exact replies_entry hempty hcommand hs

/-! ## What a reply changes -/

/-- What a session prints for a request other than a text that is run. -/
def commandOutput (s : Session) : Terminal.Request → Text
  | .error _ => []
  | .ok line =>
      if isCommand (Text.strip line) then (s.obey (.ofName (Text.strip line).tail)).output else []

theorem reply_of_passes {r : Terminal.Request} {t : Text} (h : s.Passes r t) :
    s.reply r =
      ⟨{ (s.enter t).session with env := (runText t s.env).env },
        prompt ++ (runText t s.env).elements.flatMap outcomeLine, [],
        (runText t s.env).events⟩ := by
  obtain ⟨line, rfl, rfl, hempty, hcommand, henter⟩ := h
  exact reply_entered hempty hcommand henter

/-- **A request that has no text run changes nothing in the environment.** -/
theorem reply_of_not_passes {r : Terminal.Request} (h : ∀ t, ¬ s.Passes r t) :
    (s.reply r).session.env = s.env ∧ (s.reply r).events = [] ∧
      (s.reply r).output = prompt ++ s.commandOutput r ∧ (s.reply r).reported = s.trouble r := by
  cases r with
  | error p => exact ⟨rfl, rfl, rfl, rfl⟩
  | ok line =>
      have henter : s.enter [] = ⟨.ok (), s, [], []⟩ := enter_of_not_recorded rfl
      rw [commandOutput, trouble]
      by_cases hempty : Text.strip line = []
      · rw [reply_empty hempty, hempty, henter]
        exact ⟨rfl, rfl, rfl, rfl⟩
      · by_cases hcommand : (Text.strip line).head? = some '/'
        · obtain ⟨name, hname⟩ := List.head?_eq_some_iff.mp hcommand
          rw [reply_command hname, hname, enter_of_not_recorded rfl]
          exact ⟨rfl, rfl, rfl, rfl⟩
        · cases hresult : (s.enter (Text.strip line)).result with
          | error e =>
              rw [reply_refused hempty hcommand hresult,
                if_neg (by simpa [isCommand] using hcommand)]
              exact ⟨s.env_enter line, rfl, rfl, rfl⟩
          | ok u => exact absurd ⟨line, rfl, rfl, hempty, hcommand, hresult⟩ (h _)

theorem proper_reply (hs : s.env.Proper) (r : Terminal.Request) :
    (s.reply r).session.env.Proper := by
  by_cases h : ∃ t, s.Passes r t
  · obtain ⟨t, ht⟩ := h
    rw [reply_of_passes ht]
    exact (meets_runText_proper t hs).env
  · rw [(reply_of_not_passes (not_exists.mp h)).1]
    exact hs

/-! ## All requests -/

theorem loop_cons (hs : s.env.Proper) (r : Terminal.Request) (rs : List Terminal.Request) :
    loop (r :: rs) s =
      if Terminal.ends r then s.reply r
      else (s.reply r).followedBy (loop rs (s.reply r).session) := by
  obtain ⟨⟨result, hturn⟩, hgoes⟩ := replies_of_proper hs r
  rw [loop]
  dsimp only
  rw [hgoes, hturn]
  by_cases hr : Terminal.ends r
  · rw [if_pos hr, if_pos hr, ← s.reported_reply_of_ends hr]
  · rw [if_neg hr, if_neg hr]
    rfl

theorem foldl_reply (d : Dialogue) (requests : List Terminal.Request) :
    requests.foldl (fun d r => d.followedBy (d.session.reply r)) d =
      d.followedBy (d.session.converse requests) := by
  induction requests generalizing d with
  | nil => simp [converse, Dialogue.followedBy, Dialogue.start]
  | cons r rs ih =>
      rw [converse, List.foldl_cons, List.foldl_cons, ih, ih, Dialogue.start_followedBy,
        Dialogue.followedBy_assoc]
      rfl

theorem converse_cons (s : Session) (r : Terminal.Request) (rs : List Terminal.Request) :
    s.converse (r :: rs) = (s.reply r).followedBy ((s.reply r).session.converse rs) := by
  rw [converse, List.foldl_cons, foldl_reply, Dialogue.start_followedBy]
  rfl

/-- **The loop replies to the requests that are handled.** -/
theorem loop_eq_converse (requests : List Terminal.Request) (hs : s.env.Proper) :
    loop requests s = s.converse (handled requests) := by
  induction requests generalizing s with
  | nil => rfl
  | cons r rs ih =>
      rw [loop_cons hs, handled]
      by_cases hr : Terminal.ends r
      · rw [if_pos hr, if_pos hr, converse_cons]
        simp [converse, Dialogue.followedBy, Dialogue.start]
      · rw [if_neg hr, if_neg hr, converse_cons, ih (proper_reply hs r)]

theorem interact_eq (hs : s.env.Proper) (requests : List Terminal.Request) :
    s.interact requests = s.restoreHistory.map fun s =>
      { s.converse (handled requests) with
        output := (s.converse (handled requests)).output ++ ['\n'] } := by
  rw [interact, restoreHistory]
  cases s.history.restore s.disk with
  | error p => rfl
  | ok h =>
      have hloop := loop_eq_converse requests (s := { s with history := h }) hs
      simp only [Except.map, hloop]

/-- **A session is the fold of its requests.** In an environment of expressions of the language, a
session replies to its requests in order, up to and including the first that ends it, each in the
session that the replies before have left, and asks for none behind it; what it prints is what the
replies print, and a line end. The text of a request is run if it is a stripped line that is not
empty, is no command, and could be saved in the history, and then it is run once, in the environment
of the session, behind the prompt. Any other request prints what a command prints, if it is one,
leaves the environment alone, has no events, and reports the trouble it makes, if any. -/
theorem interact_eq_fold (hs : s.env.Proper) (requests : List Terminal.Request) :
    (s.interact requests = s.restoreHistory.map fun s =>
      let d : Dialogue :=
        (handled requests).foldl (fun d r => d.followedBy (d.session.reply r)) (.start s)
      { d with output := d.output ++ ['\n'] }) ∧
    (handled requests <+: requests ++ [.error .endOfInput] ∧
      ∃ first last, handled requests = first ++ [last] ∧ Terminal.ends last ∧
        ∀ r ∈ first, ¬ Terminal.ends r) ∧
    ((∃ r ∈ requests, Terminal.ends r) →
      ∀ more, s.interact (requests ++ more) = s.interact requests) ∧
    ∀ (s : Session) (r : Terminal.Request),
      (∀ t, s.Passes r t →
        s.reply r =
          ⟨{ (s.enter t).session with env := (runText t s.env).env },
            prompt ++ (runText t s.env).elements.flatMap outcomeLine, [],
            (runText t s.env).events⟩) ∧
      ((∀ t, ¬ s.Passes r t) →
        (s.reply r).session.env = s.env ∧ (s.reply r).events = [] ∧
          (s.reply r).output = prompt ++ s.commandOutput r ∧
          (s.reply r).reported = s.trouble r) := by
  refine ⟨interact_eq hs requests, ⟨handled_begins requests, handled_split requests⟩,
    fun hends more => ?_, fun s r => ⟨fun t => reply_of_passes, reply_of_not_passes⟩⟩
  rw [interact_eq hs, interact_eq hs, handled_append hends]

/-- A request that fails is reported, the line behind it is run, and nothing is asked for behind the
command that ends the session. -/
theorem interact_eq_fold_ended :
    let s := ofEnvironment (.ofRoot .empty 100) "h" ⟨[]⟩
    let requests : List Terminal.Request :=
      [.error (.invalid "bad"), .ok " true ", .ok "/exit", .ok "z"]
    s.env.Proper ∧ (∃ r ∈ requests, Terminal.ends r) ∧
      ∃ opened d, s.restoreHistory = .ok opened ∧ opened.Passes (.ok " true ") "true" ∧
        (∀ t, ¬ opened.Passes (.ok "/exit") t) ∧ s.interact requests = .ok d ∧
        s.interact (requests ++ [.ok "y"]) = .ok d ∧ d.output = "> > true\n> \n" ∧
        d.reported = [.terminal (.invalid "bad")] := by
  intro s requests
  have hproper : s.env.Proper := Environment.proper_ofRoot_empty 100
  have hends : ∃ r ∈ requests, Terminal.ends r :=
    ⟨.ok "/exit", .tail _ (.tail _ (.head _)), by decide⟩
  let opened : Session := { s with history := { s.history with limit := some History.fileLimit } }
  have hpasses : opened.Passes (.ok " true ") "true" :=
    ⟨" true ", rfl, by decide, by decide, by decide, rfl⟩
  have hexit (s : Session) (t : Text) : ¬ s.Passes (.ok "/exit") t := by
    rintro ⟨line, ⟨⟩, rfl, -, hcommand, -⟩
    exact hcommand (by decide)
  obtain ⟨hfold, -, hmore, hreplies⟩ := interact_eq_fold hproper requests
  have hrun := (hreplies opened (.ok " true ")).1 "true" hpasses
  have hread : readText opened.env.maxDepth "true" = ⟨[.bool true], none⟩ :=
    Alone.readText_display (e := .bool true) ⟨by decide, by decide, rfl⟩ opened.env.maxDepth
  rw [runText_eq, hread] at hrun
  have hleft := (hreplies (opened.reply (.ok " true ")).session (.ok "/exit")).2 (hexit _)
  refine ⟨hproper, hends, opened, _, rfl, hpasses, hexit opened, hfold,
    (hmore hends _).trans hfold, ?_, ?_⟩
  · show prompt ++ (opened.reply (.ok " true ")).output ++
      ((opened.reply (.ok " true ")).session.reply (.ok "/exit")).output ++ ['\n'] = _
    rw [hleft.2.2.1, hrun]
    rfl
  · show [.terminal (.invalid "bad")] ++ (opened.reply (.ok " true ")).reported ++
      ((opened.reply (.ok " true ")).session.reply (.ok "/exit")).reported = _
    rw [hleft.2.2.2, hrun]
    rfl

end Session

end MiniLisp
