import MiniLisp.Proofs.Session.History
import MiniLisp.Session.Basic

set_option autoImplicit false

/-! # Sessions that share a history file

Any number of sessions keep their histories in one file. Each of them starts, which reads the file,
and then takes lines in, answers lines and saves, in any order and in turn with the others; what is
done in a session at a time is not interrupted (`Sharing.run`). No session hears of what the others
enter after it has started, and yet the file does not lose or repeat a line: once something has been
saved, it has the last lines of those that stood there first and those recorded since, in the order
in which they were entered (`find_run`).

The invariant is that every history is tied to the file (`History.Tied`): a session adds only what
it has not saved, which is the line just entered, and it makes a new file only if none was made.

It is assumed that every line is kept as one entry and that the file can be cut. The line editor
refuses a line that holds a NUL, does not count an empty line at the start of a file, and cuts a
file by way of a working copy, which must be able to stand beside it.
-/

namespace MiniLisp

open Disk (Content)
open History

theorem Text.mem_of_mem_strip {c : Char} {t : Text} (h : c ∈ Text.strip t) : c ∈ t := by
  have hback : c ∈ (t.dropWhile isBlank).reverse :=
    (List.dropWhile_sublist _).mem (List.mem_reverse.mp h)
  exact (List.dropWhile_sublist _).mem (List.mem_reverse.mp hback)

/-! ## What is done in a session -/

/-- What an action comes to but for what its result is. -/
def Turn.done {α : Type} (t : Turn α) : Turn Unit :=
  ⟨t.result.map fun _ => (), t.session, t.output, t.events⟩

namespace Session

/-- What is done in a session. -/
inductive Action where
  | start
  | input (request : Terminal.Request)
  | step (request : Terminal.Request)
  | save

namespace Action

/-- The line that is taken in. -/
def line? : Action → Option Text
  | .input request | .step request => request.toOption
  | _ => none

/-- The lines that are recorded: the one that is taken in, stripped, unless it is then empty or a
command. -/
def recorded (a : Action) : List Text := (a.line?.toList.map Text.strip).filter isRecorded

/-- Whether the line that is taken in can be kept as one entry. -/
def Keepable (a : Action) : Prop := ∀ line ∈ a.line?, '\n' ∉ line ∧ '\x00' ∉ line

theorem recorded_input (line : Text) :
    (input (.ok line)).recorded =
      if isRecorded (Text.strip line) then [Text.strip line] else [] := by
  show [Text.strip line].filter isRecorded = _
  rw [List.filter_singleton, Bool.cond_eq_ite]

/-- A recorded line is an entry, if it can be kept. -/
theorem isEntry_of_mem_recorded {a : Action} (hkeep : a.Keepable) {line : Text}
    (h : line ∈ a.recorded) : IsEntry (.ofText line) := by
  obtain ⟨hmem, hrecorded⟩ := List.mem_filter.mp h
  obtain ⟨raw, hraw, rfl⟩ := List.mem_map.mp hmem
  obtain ⟨hfeed, hnul⟩ := hkeep raw (Option.mem_toList.mp hraw)
  refine ⟨?_, ?_, ?_⟩
  · intro hnil
    rw [List.map_eq_nil_iff.mp hnil] at hrecorded
    contradiction
  · intro hmem
    obtain ⟨c, hc, heq⟩ := List.mem_map.mp hmem
    exact hfeed (Text.mem_of_mem_strip (Disk.Piece.char.inj heq ▸ hc))
  · intro hmem
    obtain ⟨c, hc, heq⟩ := List.mem_map.mp hmem
    exact hnul (Text.mem_of_mem_strip (Disk.Piece.char.inj heq ▸ hc))

/-- Whether the history is saved: when a line is recorded, and when it is asked for. -/
def saves : Action → Bool
  | .save => true
  | a => !a.recorded.isEmpty

theorem recorded_of_not_saves {a : Action} (h : a.saves = false) : a.recorded = [] := by
  cases a with
  | start => rfl
  | save => contradiction
  | input request => simpa [saves] using h
  | step request => simpa [saves] using h

/-- The lines of the history file afterwards. -/
def linesAfter (a : Action) (lines : Option (List Content)) : Option (List Content) :=
  if a.saves then some (saveLines lines (a.recorded.map .ofText)) else lines

/-- The files afterwards, where the history file stands at a place. -/
def diskAfter (a : Action) (p : Place) (lines : Option (List Content)) (d : Disk) : Disk :=
  if a.saves then d.put p (unlines (saveLines lines (a.recorded.map .ofText))) else d

section

variable {a : Action} {d : Disk} {p : Place} {lines : Option (List Content)}

theorem linesAfter_of_saves (h : a.saves) :
    a.linesAfter lines = some (saveLines lines (a.recorded.map .ofText)) := if_pos h

theorem diskAfter_of_saves (h : a.saves) :
    a.diskAfter p lines d = d.put p (unlines (saveLines lines (a.recorded.map .ofText))) :=
  if_pos h

theorem linesAfter_of_not_saves (h : a.saves = false) : a.linesAfter lines = lines :=
  if_neg (by simp [h])

theorem diskAfter_of_not_saves (h : a.saves = false) : a.diskAfter p lines d = d :=
  if_neg (by simp [h])

/-- The file has the lines that it should have. -/
theorem written_after (hd : Written d p lines) (hkeep : a.Keepable) :
    Written (a.diskAfter p lines d) p (a.linesAfter lines) := by
  cases hsaves : a.saves with
  | false =>
      rw [linesAfter_of_not_saves hsaves, diskAfter_of_not_saves hsaves]
      exact hd
  | true =>
      rw [linesAfter_of_saves hsaves, diskAfter_of_saves hsaves]
      apply hd.put
      intro l hl
      obtain ⟨line, hline, rfl⟩ := List.mem_map.mp hl
      exact isEntry_of_mem_recorded hkeep hline

/-- The history of another session, which has not heard of what is done, stays tied to the file. -/
theorem tied_after {h : History} {name : Text} (hh : Tied h d name p lines)
    (hd : Written d p lines) (a : Action) :
    Tied h (a.diskAfter p lines d) name p (a.linesAfter lines) := by
  cases hsaves : a.saves with
  | false =>
      rw [linesAfter_of_not_saves hsaves, diskAfter_of_not_saves hsaves]
      exact hh
  | true =>
      rw [linesAfter_of_saves hsaves, diskAfter_of_saves hsaves]
      exact hh.put hd _ _

end

end Action

/-- Does something in a session. -/
def perform (s : Session) : Action → Turn Unit
  | .start =>
      match s.restoreHistory with
      | .ok s' => ⟨.ok (), s', [], []⟩
      | .error p => ⟨.error (.disk p), s, [], []⟩
  | .input request => (s.takeLine request).done
  | .step request => (s.respond request).done
  | .save =>
      match s.storeHistory with
      | .ok s' => ⟨.ok (), s', [], []⟩
      | .error p => ⟨.error (.disk p), s, [], []⟩

/-- What an action should come to: no trouble with files, these files, and a history that is tied to
these lines at a place and keeps the file to its limit. -/
structure Works {α : Type} (name : Text) (p : Place) (lines : Option (List Content)) (d : Disk)
    (t : Turn α) : Prop where
  no_trouble : ∀ problem, t.result ≠ .error (.disk problem)
  disk : t.session.disk = d
  tied : Tied t.session.history d name p lines
  limit : t.session.history.limit = some fileLimit

theorem Works.map {α β : Type} {name : Text} {p : Place} {lines : Option (List Content)} {d : Disk}
    {t : Turn α} (h : Works name p lines d t) (f : α → β) (output : Text) (events : List Event) :
    Works name p lines d ⟨t.result.map f, t.session, output, events⟩ := by
  refine ⟨?_, h.disk, h.tied, h.limit⟩
  intro problem hresult
  have hno := h.no_trouble problem
  cases ht : t.result with
  | ok a => simp [ht, Except.map] at hresult
  | error e =>
      rw [ht] at hno hresult
      exact hno (congrArg Except.error (Except.error.inj hresult))

/-- Answering a line leaves the history and the files as they are. -/
theorem answer_keeps (s : Session) (line : Text) :
    (s.answer line).session.history = s.history ∧ (s.answer line).session.disk = s.disk ∧
      ∀ problem, (s.answer line).result ≠ .error (.disk problem) := by
  rw [answer]
  split
  · cases Command.ofName line.tail <;> exact ⟨rfl, rfl, by simp [obey]⟩
  split
  · exact ⟨rfl, rfl, by simp⟩
  · refine ⟨rfl, rfl, ?_⟩
    simp only [runLine]
    cases (runShown line s.env).escaped <;> simp [Except.map]

section

variable {s : Session} {name : Text} {p : Place} {lines : Option (List Content)}

theorem works_start (hd : Written s.disk p lines) (hs : Tied s.history s.disk name p lines) :
    Works name p lines s.disk (s.perform .start) := by
  obtain ⟨h, hrestore, htied, hlimit⟩ := hs.restore hd
  have hstart : s.perform .start = ⟨.ok (), { s with history := h }, [], []⟩ := by
    rw [perform, restoreHistory, hrestore]
    rfl
  rw [hstart]
  exact ⟨by simp, rfl, htied, hlimit⟩

variable (hd : Written s.disk p lines) (hs : Tied s.history s.disk name p lines)
  (hlimit : s.history.limit = some fileLimit)

include hd hs hlimit

/-- Saving, when nothing has been entered that is not saved, cuts the file. -/
theorem works_save :
    Works name p (some (saveLines lines [])) (s.disk.put p (unlines (saveLines lines [])))
      (s.perform .save) := by
  have hunsaved : s.history.entries.drop s.history.saved = [] := by
    rw [hs.saved, List.drop_length]
  have hstore := store_eq hs.way hs.copy hd hlimit (by simp) hunsaved hs.unwritten
  have hsave : s.perform .save =
      ⟨.ok (), { s with
        history := { s.history with saved := s.history.entries.length }
        disk := s.disk.put p (unlines (saveLines lines [])) }, [], []⟩ := by
    rw [perform, storeHistory, hstore]
    rfl
  have htied := hs.put hd (unlines (saveLines lines [])) (saveLines lines [])
  rw [hsave]
  exact ⟨by simp, rfl, ⟨htied.name_eq, htied.way, htied.copy, rfl, by simp⟩, hlimit⟩

/-- Entering a line that is recorded adds it to the file. -/
theorem works_enter {line : Text} (hrecorded : isRecorded line) (hline : IsEntry (.ofText line)) :
    Works name p (some (saveLines lines [.ofText line]))
      (s.disk.put p (unlines (saveLines lines [.ofText line]))) (s.enter line) := by
  have hnul : '\x00' ∉ line := fun h => hline.no_nul (List.mem_map_of_mem h)
  have hmore : ∀ l ∈ [Content.ofText line], IsEntry l := by simpa using hline
  have hunsaved : (s.history.add line).entries.drop (s.history.add line).saved =
      [.ofText line] := by
    show (s.history.entries ++ [Content.ofText line]).drop s.history.saved = [.ofText line]
    rw [hs.saved, List.drop_left]
  have hunwritten : lines = none → (s.history.add line).entries = [.ofText line] := by
    intro h
    show s.history.entries ++ [Content.ofText line] = [.ofText line]
    rw [hs.unwritten h, List.nil_append]
  have hway : s.disk.Leads (s.history.add line).name p := hs.way
  have hstore := store_eq hway hs.copy hd hlimit hmore hunsaved hunwritten
  have henter : s.enter line =
      ⟨.ok (), { s with
        history := { s.history.add line with saved := (s.history.add line).entries.length }
        disk := s.disk.put p (unlines (saveLines lines [.ofText line])) }, [], []⟩ := by
    simp only [enter, hrecorded, hnul, storeHistory, hstore]
    rfl
  have htied := hs.put hd (unlines (saveLines lines [.ofText line]))
    (saveLines lines [.ofText line])
  rw [henter]
  exact ⟨by simp, rfl, ⟨htied.name_eq, htied.way, htied.copy, rfl, by simp⟩, hlimit⟩

/-- Taking a line in records it, if it is to be recorded, and saves it at once. -/
theorem works_takeLine {request : Terminal.Request} (hkeep : (Action.input request).Keepable) :
    Works name p ((Action.input request).linesAfter lines)
      ((Action.input request).diskAfter p lines s.disk) (s.takeLine request) := by
  cases request with
  | error e => exact ⟨by simp [takeLine], rfl, hs, hlimit⟩
  | ok line =>
      cases hrecorded : isRecorded (Text.strip line) with
      | false =>
          have hnone : (Action.input (.ok line)).recorded = [] := by
            rw [Action.recorded_input, hrecorded]
            rfl
          have hsaves : (Action.input (.ok line)).saves = false := by simp [Action.saves, hnone]
          have henter : s.enter (Text.strip line) = ⟨.ok (), s, [], []⟩ := by
            simp [enter, hrecorded]
          rw [Action.linesAfter_of_not_saves hsaves, Action.diskAfter_of_not_saves hsaves, takeLine,
            henter]
          exact ⟨by simp [Except.map], rfl, hs, hlimit⟩
      | true =>
          have hone : (Action.input (.ok line)).recorded = [Text.strip line] := by
            rw [Action.recorded_input, hrecorded]
            rfl
          have hsaves : (Action.input (.ok line)).saves = true := by simp [Action.saves, hone]
          have hentry : IsEntry (.ofText (Text.strip line)) :=
            Action.isEntry_of_mem_recorded hkeep (hone ▸ List.mem_singleton_self _)
          rw [Action.linesAfter_of_saves hsaves, Action.diskAfter_of_saves hsaves, hone, takeLine]
          exact (works_enter hd hs hlimit hrecorded hentry).map _ _ _

/-- Answering a line, beyond taking it in, leaves the history and the files as they are. -/
theorem works_respond {request : Terminal.Request} (hkeep : (Action.input request).Keepable) :
    Works name p ((Action.input request).linesAfter lines)
      ((Action.input request).diskAfter p lines s.disk) (s.respond request) := by
  have htaken := works_takeLine hd hs hlimit hkeep
  rw [respond]
  cases hresult : (s.takeLine request).result with
  | error e =>
      refine ⟨?_, htaken.disk, htaken.tied, htaken.limit⟩
      intro problem herror
      rw [Except.error.inj herror] at hresult
      exact htaken.no_trouble problem hresult
  | ok line =>
      obtain ⟨hhistory, hdisk, hno⟩ := answer_keeps (s.takeLine request).session line
      exact ⟨hno, hdisk.trans htaken.disk, hhistory ▸ htaken.tied, hhistory ▸ htaken.limit⟩

end

/-- **Whatever is done in a session comes to what it should.** -/
theorem works_perform {s : Session} {name : Text} {p : Place} {lines : Option (List Content)}
    (hd : Written s.disk p lines) (hs : Tied s.history s.disk name p lines) {a : Action}
    (hstarted : a = .start ∨ s.history.limit = some fileLimit) (hkeep : a.Keepable) :
    Works name p (a.linesAfter lines) (a.diskAfter p lines s.disk) (s.perform a) := by
  cases a with
  | start => exact works_start hd hs
  | save =>
      rcases hstarted with h | hlimit
      · contradiction
      · exact works_save hd hs hlimit
  | input request =>
      rcases hstarted with h | hlimit
      · contradiction
      · exact (works_takeLine hd hs hlimit hkeep).map _ _ _
  | step request =>
      rcases hstarted with h | hlimit
      · contradiction
      · exact (works_respond hd hs hlimit hkeep).map _ _ _

end Session

open Session

/-! ## Sessions in turn -/

/-- Sessions, and the files that they share. -/
structure Sharing (ι : Type) where
  disk : Disk
  sessions : ι → Session

namespace Sharing

variable {ι : Type} [DecidableEq ι]

/-- Sessions in which nothing has been done yet. -/
def begin (d : Disk) (env : ι → Environment) (name : ι → Text) : Sharing ι :=
  ⟨d, fun i => Session.ofEnvironment (env i) (name i) d⟩

/-- A session, which meets the files as the others have left them. -/
def session (w : Sharing ι) (i : ι) : Session := { w.sessions i with disk := w.disk }

/-- Does something in one of the sessions. -/
def act (w : Sharing ι) (i : ι) (a : Action) : Except Trouble Unit × Sharing ι :=
  let t := (w.session i).perform a
  (t.result, ⟨t.session.disk, Function.update w.sessions i t.session⟩)

/-- Does one thing after the other: what trouble there is with each, and what is left. -/
def run (w : Sharing ι) : List (ι × Action) → List (Except Trouble Unit) × Sharing ι
  | [] => ([], w)
  | (i, a) :: rest =>
      let (result, w') := w.act i a
      let (results, w'') := w'.run rest
      (result :: results, w'')

/-- What is done in one of the sessions, in order. -/
def own (i : ι) (trace : List (ι × Action)) : List Action := (trace.filter (·.1 = i)).map (·.2)

/-- The lines that are recorded, as they stand in a file. -/
def recorded (trace : List (ι × Action)) : List Content :=
  trace.flatMap fun x => x.2.recorded.map .ofText

/-- Whether something is saved. -/
def saves (trace : List (ι × Action)) : Bool := trace.any (·.2.saves)

/-- The lines of the history file after all that is done. -/
def linesAfter (lines : Option (List Content)) (trace : List (ι × Action)) :
    Option (List Content) :=
  trace.foldl (fun lines x => x.2.linesAfter lines) lines

omit [DecidableEq ι] in
theorem recorded_of_not_saves {trace : List (ι × Action)} (h : saves trace = false) :
    recorded trace = [] := by
  rw [recorded, List.flatMap_eq_nil_iff]
  intro x hx
  have hx : x.2.saves = false := by simpa using List.any_eq_false.mp h x hx
  rw [Action.recorded_of_not_saves hx, List.map_nil]

omit [DecidableEq ι] in
/-- Cut at every saving, the file has the last of all the lines. -/
theorem linesAfter_eq (lines : Option (List Content)) (trace : List (ι × Action)) :
    linesAfter lines trace =
      if saves trace then some ((lines.getD [] ++ recorded trace).rtake fileLimit) else lines := by
  induction trace generalizing lines with
  | nil => rfl
  | cons x trace ih =>
      have hstep : linesAfter lines (x :: trace) = linesAfter (x.2.linesAfter lines) trace := rfl
      have hsaves : saves (x :: trace) = (x.2.saves || saves trace) := List.any_cons
      have hrecorded : recorded (x :: trace) = x.2.recorded.map .ofText ++ recorded trace :=
        List.flatMap_cons
      rw [hstep, ih, hsaves, hrecorded]
      cases hx : x.2.saves with
      | false =>
          rw [Action.linesAfter_of_not_saves hx, Action.recorded_of_not_saves hx, Bool.false_or,
            List.map_nil, List.nil_append]
      | true =>
          rw [Action.linesAfter_of_saves hx, Option.getD_some, saveLines, rtake_append_rtake,
            List.append_assoc, Bool.true_or, if_pos rfl]
          cases htrace : saves trace with
          | false => rw [recorded_of_not_saves htrace, List.append_nil]; rfl
          | true => rfl

/-- Whether the file at a place has these lines, if it is there, and all the histories are tied to
it. -/
structure Kept (w : Sharing ι) (name : ι → Text) (p : Place) (lines : Option (List Content)) :
    Prop where
  written : Written w.disk p lines
  tied : ∀ i, Tied (w.sessions i).history w.disk (name i) p lines

section

variable {w : Sharing ι} {name : ι → Text} {p : Place} {lines : Option (List Content)}

/-- **What is done in one session keeps all the histories.** -/
theorem Kept.act (h : w.Kept name p lines) {i : ι} {a : Action}
    (hstarted : a = .start ∨ (w.sessions i).history.limit = some fileLimit) (hkeep : a.Keepable) :
    (w.act i a).2.Kept name p (a.linesAfter lines) ∧
      (w.act i a).2.disk = a.diskAfter p lines w.disk ∧
      ((w.act i a).2.sessions i).history.limit = some fileLimit ∧
      ∀ problem, (w.act i a).1 ≠ .error (.disk problem) := by
  have hworks : Works (name i) p (a.linesAfter lines) (a.diskAfter p lines w.disk)
      ((w.session i).perform a) := by
    have hwritten : Written (w.session i).disk p lines := h.written
    have htied : Tied (w.session i).history (w.session i).disk (name i) p lines := h.tied i
    exact works_perform hwritten htied hstarted hkeep
  have hself : (w.act i a).2.sessions i = ((w.session i).perform a).session :=
    Function.update_self ..
  have hdisk : (w.act i a).2.disk = a.diskAfter p lines w.disk := hworks.disk
  refine ⟨⟨?_, ?_⟩, hdisk, ?_, hworks.no_trouble⟩
  · rw [hdisk]
    exact Action.written_after h.written hkeep
  · intro j
    rw [hdisk]
    by_cases hj : j = i
    · subst hj
      rw [hself]
      exact hworks.tied
    · have hother : (w.act i a).2.sessions j = w.sessions j := Function.update_of_ne hj ..
      rw [hother]
      exact Action.tied_after (h.tied j) h.written a
  · rw [hself]
    exact hworks.limit

/-- **What is done in sessions that have started, or start first, keeps all the histories.** -/
theorem Kept.run (h : w.Kept name p lines) {trace : List (ι × Action)}
    (hstarted : ∀ i, (w.sessions i).history.limit = some fileLimit ∨
      ∀ a ∈ (own i trace).head?, a = .start)
    (hkeep : ∀ x ∈ trace, x.2.Keepable) :
    (w.run trace).2.Kept name p (linesAfter lines trace) ∧
      (saves trace = false → (w.run trace).2.disk = w.disk) ∧
      ∀ result ∈ (w.run trace).1, ∀ problem, result ≠ .error (.disk problem) := by
  induction trace generalizing w lines with
  | nil => exact ⟨h, fun _ => rfl, by simp [run]⟩
  | cons x trace ih =>
      obtain ⟨i, a⟩ := x
      have hfirst : a = .start ∨ (w.sessions i).history.limit = some fileLimit := by
        rcases hstarted i with hlimit | hown
        · exact Or.inr hlimit
        · exact Or.inl (hown a (by simp [own]))
      obtain ⟨hkept, hdisk, hlimit, hno⟩ := h.act hfirst (hkeep (i, a) (by simp))
      have hstarted' : ∀ j, ((w.act i a).2.sessions j).history.limit = some fileLimit ∨
          ∀ b ∈ (own j trace).head?, b = .start := by
        intro j
        by_cases hj : j = i
        · exact Or.inl (hj ▸ hlimit)
        · have hother : (w.act i a).2.sessions j = w.sessions j := Function.update_of_ne hj ..
          have hown : own j ((i, a) :: trace) = own j trace := by simp [own, Ne.symm hj]
          rw [hother, ← hown]
          exact hstarted j
      obtain ⟨hall, hsame, hnone⟩ := ih hkept hstarted' (fun y hy => hkeep y (by simp [hy]))
      refine ⟨hall, ?_, ?_⟩
      · intro hsaves
        obtain ⟨ha, htrace⟩ := Bool.or_eq_false_iff.mp hsaves
        exact (hsame htrace).trans (hdisk.trans (Action.diskAfter_of_not_saves ha))
      · exact List.forall_mem_cons.mpr ⟨hno, hnone⟩

end

/-- **History loses and duplicates nothing.** Sessions with empty histories share one file, which
holds entries or is not there yet, in a directory that is there and has room for a working copy.
Each session starts before it does anything else, and all that they do is done in one order, with
lines that can be kept. Once something has been saved, the lines of the file are the last of those
that it had and those recorded by all the sessions so far, in the order in which they were entered;
until then no file is changed. Nothing that is done fails because of a file. -/
theorem find_run {d : Disk} {p : Place} {first : Option (List Content)} (env : ι → Environment)
    (name : ι → Text) (hfirst : Written d p first)
    (hway : ∀ i, d.Leads (History.ofName (name i)).name p)
    (hcopy : ∀ i, ∃ q, d.Leads ((History.ofName (name i)).name ++ Disk.workingSuffix) q)
    {trace : List (ι × Action)} (hstart : ∀ i, ∀ a ∈ (own i trace).head?, a = .start)
    (hlines : ∀ x ∈ trace, ∀ line ∈ x.2.line?, '\n' ∉ line ∧ '\x00' ∉ line) :
    let ran := (begin d env name).run trace
    (saves trace → ∀ i, ran.2.disk.find (History.ofName (name i)).name =
        .ok (p, .file (unlines ((first.getD [] ++ recorded trace).rtake 1000)))) ∧
      (saves trace = false → ran.2.disk = d) ∧
      ∀ result ∈ ran.1, ∀ problem, result ≠ .error (.disk problem) := by
  intro ran
  have hbegin : (begin d env name).Kept (fun i => (History.ofName (name i)).name) p first :=
    ⟨hfirst, fun i => ⟨rfl, hway i, hcopy i, rfl, fun _ => rfl⟩⟩
  obtain ⟨hkept, hsame, hno⟩ := hbegin.run (fun i => Or.inr (hstart i)) hlines
  refine ⟨?_, hsame, hno⟩
  intro hsaves i
  have hentry := hkept.written.entry
  rw [linesAfter_eq, if_pos hsaves] at hentry
  have hfind := (hkept.tied i).way.find_eq
  rw [(hkept.tied i).name_eq, hentry] at hfind
  exact hfind

/-- Two sessions that both know of the first line only: each adds its own to those of the other. -/
theorem find_run_two_sessions :
    let p : Place := ⟨.above 0, ["h"]⟩
    let d : Disk := ⟨[(p, .file (unlines [.ofText "a"]))]⟩
    let trace : List (Bool × Action) :=
      [(false, .start), (true, .start), (false, .input (.ok " b ")), (true, .step (.ok "/env")),
        (true, .step (.ok "c")), (false, .save)]
    ((begin d (fun _ => .ofRoot .empty 100) (fun _ => "h")).run trace).2.disk.find "h" =
      .ok (p, .file (unlines [.ofText "a", .ofText "b", .ofText "c"])) := by
  intro p d trace
  have hfirst : Written d p (some [.ofText "a"]) := by
    refine ⟨rfl, ?_⟩
    intro ls hls l hl
    rw [← Option.some.inj hls] at hl
    rw [List.mem_singleton.mp hl]
    exact ⟨by decide, by decide, by decide⟩
  have hway : d.Leads "h" p :=
    .intro (.ofText "h") [] ⟨.above 0, []⟩ "h" rfl (by decide) (by decide) rfl (by decide)
      (by decide)
  have hcopy : ∃ q, d.Leads ("h" ++ Disk.workingSuffix) q :=
    ⟨_, .intro (.ofText "h-00000.tmp") [] ⟨.above 0, []⟩ "h-00000.tmp" rfl (by decide) (by decide)
      rfl (by decide) (by decide)⟩
  have hstart : ∀ i, ∀ a ∈ (own i trace).head?, a = .start := by
    intro i a ha
    cases i <;> exact (Option.some.inj ha).symm
  have hlines : ∀ x ∈ trace, ∀ line ∈ x.2.line?, '\n' ∉ line ∧ '\x00' ∉ line := by decide
  have hlast : ((some [Content.ofText "a"]).getD [] ++ recorded trace).rtake 1000 =
      [.ofText "a", .ofText "b", .ofText "c"] := by
    have hrecorded : recorded trace = [.ofText "b", .ofText "c"] := by decide
    rw [hrecorded]
    simp [List.rtake]
  have hfind := (find_run (fun _ => .ofRoot .empty 100) (fun _ => "h") hfirst (fun _ => hway)
    (fun _ => hcopy) hstart hlines).1 (by decide) true
  rw [hlast] at hfind
  exact hfind

end Sharing

end MiniLisp
