import MiniLisp.Proofs.Session.Conversation

set_option autoImplicit false

/-! # The files of a start are one program

The files that the program is started with hold expressions, and a text that cannot be read to its
end holds one more thing to come to, the place where it is refused (`Item`). The items of all the
files in order are the program (`program`). Either they are run to the last one, each in the
environment that the one before it left (`Completes`), and the loop opens in the environment left
in the end; or one of them is the first to fail (`FailingFile`), and nothing is run after it
(`ofArguments_files`).

The limit of nesting is read from the environment anew for each file. It is the same for all of them
because no evaluation changes it.
-/

namespace MiniLisp

open Eval Scopes Transcript

/-! ## Items -/

/-- What a text holds for the evaluation: an expression, or the place where it cannot be read on. -/
inductive Item where
  | expression (e : Expr)
  | unreadable (c : Cause)

/-- An expression is evaluated; where a text cannot be read on, it fails. -/
def Item.run : Item → Eval Expr
  | .expression e => evaluate e
  | .unreadable c => Eval.fail c

/-- The items of a text, in order. -/
def items (limit : ℤ) (t : Text) : List Item :=
  (readText limit t).exprs.map .expression ++ (readText limit t).refused.toList.map .unreadable

/-- The items of files, in order. Each file comes with its path. -/
def program (limit : ℤ) (files : List (Text × Text)) : List Item :=
  files.flatMap fun f => items limit f.2

theorem program_cons (limit : ℤ) (f : Text × Text) (files : List (Text × Text)) :
    program limit (f :: files) = items limit f.2 ++ program limit files :=
  List.flatMap_cons

/-- Items are run one after the other, from one environment to another, and none fails. -/
inductive Completes : Environment → List Item → List Event → Environment → Prop
  | nil (env : Environment) : Completes env [] [] env
  | cons {i : Item} {v : Expr} {env left : Environment} {is : List Item} {events : List Event} :
      (i.run env).result = .ok v → Completes (i.run env).env is events left →
      Completes env (i :: is) ((i.run env).events ++ events) left

/-- The first item that fails when items are run one after the other, with the events before it and
the environment in which it is reached. -/
structure Stop (env : Environment) (is : List Item) where
  before : List Item
  item : Item
  after : List Item
  split : is = before ++ item :: after
  events : List Event
  reached : Environment
  completes : Completes env before events reached
  failure : Failure
  fails : (item.run reached).result = .error (.failure failure)

/-- The file with the first item that fails when files are loaded one after the other, with the
events before it and the environment in which it is opened. -/
structure FailingFile (env : Environment) (files : List (Text × Text)) where
  earlier : List (Text × Text)
  path : Text
  text : Text
  later : List (Text × Text)
  split : files = earlier ++ (path, text) :: later
  events : List Event
  opened : Environment
  completes : Completes env (program env.maxDepth earlier) events opened
  stop : Stop opened (items opened.maxDepth text)

namespace Item

theorem maxDepth_run (i : Item) (env : Environment) : (i.run env).env.maxDepth = env.maxDepth := by
  cases i with
  | expression e => exact maxDepth_evaluate e env
  | unreadable c => rfl

/-- Whether an item is one of a program of the language. -/
def Proper (i : Item) : Prop := ∀ e, i = .expression e → e.Proper

theorem staysProper_run {i : Item} {env : Environment} (hi : i.Proper) (henv : env.Proper) :
    StaysProper (i.run env) := by
  cases i with
  | expression e => exact (properVocabulary.evaluate (hi e rfl) henv).staysProper
  | unreadable c => exact ⟨Or.inr ⟨.ofCause c, rfl⟩, henv⟩

end Item

theorem proper_of_mem_items {limit : ℤ} {t : Text} {i : Item} (hi : i ∈ items limit t) :
    i.Proper := by
  rintro e rfl
  rcases List.mem_append.mp hi with hi | hi
  · obtain ⟨e', he', ⟨⟩⟩ := List.mem_map.mp hi
    exact proper_of_mem_readText he'
  · obtain ⟨c, -, ⟨⟩⟩ := List.mem_map.mp hi

/-- The place where a text cannot be read on comes last, and the text is nested too deeply there. -/
theorem before_unreadable {limit : ℤ} {t : Text} {before after : List Item} {c : Cause}
    (h : items limit t = before ++ .unreadable c :: after) :
    c = .tooDeep limit ∧ after = [] ∧ before = (readText limit t).exprs.map .expression := by
  have hexprs : .unreadable c ∉ (readText limit t).exprs.map Item.expression := by simp
  rw [items] at h
  cases hrefused : (readText limit t).refused with
  | none =>
      rw [hrefused, Option.toList_none, List.map_nil, List.append_nil] at h
      rw [h] at hexprs
      simp at hexprs
  | some c' =>
      rw [hrefused, Option.toList_some, List.map_singleton] at h
      rcases List.eq_nil_or_concat after with rfl | ⟨init, last, rfl⟩
      · obtain ⟨hbefore, ⟨⟩⟩ := List.append_inj' h rfl
        exact ⟨refused_readTokens hrefused, rfl, hbefore.symm⟩
      · rw [List.concat_eq_append, ← List.cons_append, ← List.append_assoc] at h
        rw [(List.append_inj' h rfl).1] at hexprs
        simp at hexprs

namespace Completes

variable {env mid left : Environment} {is js : List Item} {events more : List Event}

theorem maxDepth (h : Completes env is events left) : left.maxDepth = env.maxDepth := by
  induction h with
  | nil env => rfl
  | @cons i _ env left _ _ _ _ ih => exact ih.trans (i.maxDepth_run env)

theorem proper (h : Completes env is events left) (his : ∀ i ∈ is, i.Proper)
    (henv : env.Proper) : left.Proper := by
  induction h with
  | nil env => exact henv
  | cons _ _ ih =>
      obtain ⟨hi, his⟩ := List.forall_mem_cons.mp his
      exact ih his (Item.staysProper_run hi henv).env

theorem append (h : Completes env is events mid) (hm : Completes mid js more left) :
    Completes env (is ++ js) (events ++ more) left := by
  induction h with
  | nil env => exact hm
  | cons hv _ ih =>
      rw [List.append_assoc]
      exact .cons hv (ih hm)

theorem of_append (h : Completes env (is ++ js) events left) :
    ∃ events₁ mid events₂, Completes env is events₁ mid ∧ Completes mid js events₂ left ∧
      events = events₁ ++ events₂ := by
  induction is generalizing env events with
  | nil => exact ⟨[], env, events, .nil env, h, rfl⟩
  | cons i is ih =>
      cases h with
      | cons hv h =>
          obtain ⟨events₁, mid, events₂, h₁, h₂, rfl⟩ := ih h
          exact ⟨_, mid, events₂, .cons hv h₁, h₂, (List.append_assoc ..).symm⟩

end Completes

/-- **Items are run to the end, or there is one that is the first to fail.** -/
theorem completes_or_stop {env : Environment} {is : List Item} (his : ∀ i ∈ is, i.Proper)
    (henv : env.Proper) :
    (∃ events left, Completes env is events left) ∨ Nonempty (Stop env is) := by
  induction is generalizing env with
  | nil => exact Or.inl ⟨[], env, .nil env⟩
  | cons i is ih =>
      obtain ⟨hi, his⟩ := List.forall_mem_cons.mp his
      have hrun := Item.staysProper_run hi henv
      rcases hrun.outcome with ⟨v, hv, -⟩ | ⟨f, hf⟩
      · rcases ih his hrun.env with ⟨events, left, h⟩ | hstop
        · exact Or.inl ⟨_, left, .cons hv h⟩
        · obtain ⟨s⟩ := hstop
          refine Or.inr ⟨⟨i :: s.before, s.item, s.after, ?_, _, s.reached, .cons hv s.completes,
            s.failure, s.fails⟩⟩
          rw [List.cons_append, ← s.split]
      · exact Or.inr ⟨⟨[], i, is, rfl, [], env, .nil env, f, hf⟩⟩

/-! ## Texts -/

/-- Runs items in order, up to the first that fails. -/
def runAll : List Item → Eval Unit
  | [] => pure ()
  | i :: is => do
      let _ ← i.run
      runAll is

theorem runAll_of_completes {env mid : Environment} {is : List Item} {events : List Event}
    (h : Completes env is events mid) (js : List Item) :
    runAll (is ++ js) env =
      ⟨(runAll js mid).result, (runAll js mid).env, events ++ (runAll js mid).events⟩ := by
  induction h with
  | nil env => rfl
  | cons hv _ ih =>
      rw [List.cons_append, runAll, bind_of_ok _ hv, ih, List.append_assoc]

theorem runAll_of_stop {env : Environment} {is : List Item} (s : Stop env is) :
    runAll is env =
      ⟨.error (.failure s.failure), (s.item.run s.reached).env,
        s.events ++ (s.item.run s.reached).events⟩ := by
  calc runAll is env = runAll (s.before ++ s.item :: s.after) env := congrArg (runAll · env) s.split
    _ = _ := by rw [runAll_of_completes s.completes, runAll, bind_of_error _ s.fails]

theorem runAll_expressions (es : List Expr) (js : List Item) :
    runAll (es.map .expression ++ js) = (evaluateAll es >>= fun _ => runAll js) := by
  induction es with
  | nil => rfl
  | cons e es ih =>
      funext env
      rw [evaluateAll, bind_bind, List.map_cons, List.cons_append, runAll, ih, Item.run]

/-- A text is loaded by running its items. -/
theorem evaluateText_eq_runAll (t : Text) (env : Environment) :
    evaluateText t env = runAll (items env.maxDepth t) env := by
  rw [evaluateText_eq, items, runAll_expressions]
  cases (readText env.maxDepth t).refused with
  | none => rfl
  | some c => rfl

/-- What a run yields for the items of a text, up to the first that fails: the values of those
before it, and its failure. -/
theorem elements_of_completes {env reached : Environment} {before after : List Item} {item : Item}
    {events : List Event} (h : Completes env before events reached) {failure : Failure}
    (hfails : (item.run reached).result = .error (.failure failure)) {es : List Expr}
    {refused : Option Cause}
    (hsplit : es.map .expression ++ refused.toList.map .unreadable = before ++ item :: after) :
    ∃ (values : List Expr) (rest : List (Except Failure Expr)), values.length = before.length ∧
      ((runExprs .ok es env).followedBy (refusal refused)).elements =
        values.map .ok ++ .error failure :: rest := by
  -- on the items that are run to the end, each of which is an expression of the text
  induction h generalizing es with
  | nil env =>
      cases es with
      | nil =>
          -- the text is refused at its beginning
          cases refused with
          | none => cases hsplit
          | some c =>
              cases hsplit
              cases hfails
              exact ⟨[], [], rfl, rfl⟩
      | cons e es =>
          cases hsplit
          rw [runExprs_cons, followedBy_assoc, runExprs_of_failure hfails,
            followedBy_of_not_escaped rfl]
          exact ⟨[], _, rfl, rfl⟩
  | @cons i v env _ is _ hv _ ih =>
      cases es with
      | nil => cases refused <;> simp at hsplit
      | cons e es =>
          rw [List.map_cons, List.cons_append, List.cons_append, List.cons.injEq] at hsplit
          obtain ⟨rfl, hsplit⟩ := hsplit
          obtain ⟨values, rest, hlength, helements⟩ := ih hfails hsplit
          rw [runExprs_cons, followedBy_assoc, runExprs_of_ok hv, followedBy_of_not_escaped rfl]
          exact ⟨v :: values, rest, by simp [hlength],
            congrArg (List.cons (Except.ok v)) helements⟩

theorem elements_of_stop {t : Text} {env : Environment} (s : Stop env (items env.maxDepth t)) :
    ∃ (values : List Expr) (rest : List (Except Failure Expr)), values.length = s.before.length ∧
      (runText t env).elements = values.map .ok ++ .error s.failure :: rest := by
  rw [runText_eq]
  exact elements_of_completes s.completes s.fails s.split

/-! ## Files -/

section

variable {d : Disk} {path t : Text} {env : Environment}

theorem loadFile_of_completes (ht : d.readText path = .ok t) {events : List Event}
    {left : Environment} (h : Completes env (items env.maxDepth t) events left) :
    loadFile d path env = ⟨.ok (), left, events⟩ := by
  have hrun := runAll_of_completes h []
  rw [List.append_nil, ← evaluateText_eq_runAll] at hrun
  rw [loadFile, ht]
  simp [hrun, runAll, pure_apply, Except.mapError]

theorem loadFile_of_stop (ht : d.readText path = .ok t) (s : Stop env (items env.maxDepth t)) :
    loadFile d path env =
      ⟨.error (.fault (.failure (s.failure.addNote (.whileLoading path)))),
        (s.item.run s.reached).env, s.events ++ (s.item.run s.reached).events⟩ := by
  rw [loadFile, ht]
  dsimp only
  rw [evaluateText_eq_runAll, runAll_of_stop s]
  rfl

end

/-- Whether files can be read, each being given with its path and its text. -/
def Holds (d : Disk) (files : List (Text × Text)) : Prop :=
  ∀ f ∈ files, d.readText f.1 = .ok f.2

/-- Files of which no item fails are loaded, and then those behind them. -/
theorem loadFiles_of_completes {d : Disk} {files : List (Text × Text)} (hd : Holds d files)
    {env mid : Environment} {events : List Event}
    (h : Completes env (program env.maxDepth files) events mid) (names : List Text) :
    loadFiles d (files.map Prod.fst ++ names) env =
      ⟨(loadFiles d names mid).result, (loadFiles d names mid).env,
        events ++ (loadFiles d names mid).events⟩ := by
  induction files generalizing env events with
  | nil =>
      cases h
      rfl
  | cons f files ih =>
      obtain ⟨hf, hfiles⟩ := List.forall_mem_cons.mp hd
      rw [program_cons] at h
      obtain ⟨events₁, opened, events₂, h₁, h₂, rfl⟩ := h.of_append
      rw [← h₁.maxDepth] at h₂
      rw [List.map_cons, List.cons_append, loadFiles, loadFile_of_completes hf h₁]
      simp only [ih hfiles h₂, List.append_assoc]

theorem loadFiles_of_failingFile {d : Disk} {files : List (Text × Text)} (hd : Holds d files)
    {env : Environment} (s : FailingFile env files) :
    loadFiles d (files.map Prod.fst) env =
      ⟨.error (.fault (.failure (s.stop.failure.addNote (.whileLoading s.path)))),
        (s.stop.item.run s.stop.reached).env,
        s.events ++ (s.stop.events ++ (s.stop.item.run s.stop.reached).events)⟩ := by
  have hall : Holds d (s.earlier ++ (s.path, s.text) :: s.later) := s.split ▸ hd
  have hearlier : Holds d s.earlier := fun f hf => hall f (by simp [hf])
  have hfile : d.readText s.path = .ok s.text := hall (s.path, s.text) (by simp)
  have hnames : files.map Prod.fst =
      s.earlier.map Prod.fst ++ s.path :: s.later.map Prod.fst := by
    conv_lhs => rw [s.split]
    rw [List.map_append, List.map_cons]
  rw [hnames, loadFiles_of_completes hearlier s.completes, loadFiles,
    loadFile_of_stop hfile s.stop]

/-- **Files are run to the end, or there is one that is the first to fail.** -/
theorem completes_or_failingFile (files : List (Text × Text)) {env : Environment}
    (henv : env.Proper) :
    (∃ events left, Completes env (program env.maxDepth files) events left) ∨
      Nonempty (FailingFile env files) := by
  induction files generalizing env with
  | nil => exact Or.inl ⟨[], env, .nil env⟩
  | cons f files ih =>
      have hitems : ∀ i ∈ items env.maxDepth f.2, i.Proper := fun i hi => proper_of_mem_items hi
      -- the limit for the other files is that of the environment which the first one leaves
      rcases completes_or_stop hitems henv with ⟨events, opened, h⟩ | ⟨⟨stop⟩⟩
      · rcases ih (h.proper hitems henv) with ⟨more, left, hmore⟩ | ⟨⟨s⟩⟩
        · rw [h.maxDepth] at hmore
          exact Or.inl ⟨_, left, program_cons .. ▸ h.append hmore⟩
        · have hearlier := s.completes
          rw [h.maxDepth] at hearlier
          refine Or.inr ⟨⟨f :: s.earlier, s.path, s.text, s.later, ?_, _, s.opened,
            program_cons .. ▸ h.append hearlier, s.stop⟩⟩
          rw [List.cons_append, ← s.split]
      · exact Or.inr ⟨⟨[], f.1, f.2, files, rfl, [], env, .nil env, stop⟩⟩

/-! ## The start -/

theorem proper_of_mem_program {limit : ℤ} {files : List (Text × Text)} {i : Item}
    (hi : i ∈ program limit files) : i.Proper := by
  obtain ⟨f, -, hf⟩ := List.mem_flatMap.mp hi
  exact proper_of_mem_items hf

/-- A history that is read changes nothing else in its session. -/
theorem Session.eq_of_restoreHistory {s opened : Session} (h : s.restoreHistory = .ok opened) :
    opened = { s with history := opened.history } := by
  unfold restoreHistory at h
  cases hrestored : s.history.restore s.disk with
  | error p =>
      rw [hrestored] at h
      cases h
  | ok history =>
      rw [hrestored] at h
      cases h
      rfl

namespace Launch

variable {name : Text} {d : Disk} (requests : List Terminal.Request)

theorem ofLoaded_of_error {loaded : Run Trouble Unit} {t : Trouble}
    (h : loaded.result = .error t) :
    ofLoaded loaded name requests d = ⟨.failed t, [], [], d, Event.log loaded.events⟩ := by
  rw [ofLoaded, afterLoading, h]

theorem ofLoaded_of_ok {loaded : Run Trouble Unit} (h : loaded.result = .ok ()) :
    ofLoaded loaded name requests d =
      ofSession loaded.env loaded.events name requests d := by
  rw [ofSession, ofLoaded, afterLoading, h]
  rfl

variable {env : Environment}

/-- A history that cannot be read ends the program before the first request. -/
theorem ofSession_of_unrestored (events : List Event) {p : Disk.Problem}
    (hp : (Session.ofEnvironment env name d).restoreHistory = .error p) :
    ofSession env events name requests d = ⟨.failed (.disk p), [], [], d, Event.log events⟩ := by
  rw [ofSession, ofLoaded, afterLoading, Session.interact, hp]
  rfl

/-- The loop opens in the environment that is given to it. -/
theorem ofSession_of_restored (events : List Event) (henv : env.Proper) {opened : Session}
    (hopened : (Session.ofEnvironment env name d).restoreHistory = .ok opened) :
    ofSession env events name requests d =
      let t := opened.converse (handled requests)
      ⟨.finished, t.output ++ ['\n'], t.reported, t.session.disk,
        Event.log (events ++ t.events)⟩ := by
  have hs : (Session.ofEnvironment env name d).env.Proper := henv
  rw [ofSession, ofLoaded, afterLoading, Session.interact_eq hs, hopened]
  rfl

end Launch

/-- **The files of a start are one program.** Either all the items of all the files, in order, are
run to the end, each in the environment that the one before it left. Then the loop opens in the
environment that the last one leaves, once the history has been read: the requests up to the first
that ends the session are replied to, one after the other, from there on. Or one of the items is the
first to fail. What it has changed up to its failure is the last thing that happens: nothing is
printed, no file is changed, and the failure is the one that a run of the file's text yields behind
the values of the items before it, with one more note behind its own, which names the file. If the
text cannot be read on there, it is nested too deeply, and all that was read before has been run. -/
theorem ofArguments_files {arguments : List Text} {o : Options} {files : List (Text × Text)}
    {d : Disk} (hparse : Options.parse arguments = .run o) (hfiles : o.files = files.map Prod.fst)
    (hd : Holds d files) (requests : List Terminal.Request) :
    let start := Launch.freshEnvironment
    let loaded := loadFiles d o.files start
    let launch := Launch.ofArguments arguments requests d
    let log (events : List Event) : List Text := if o.debug then Event.log events else []
    (∀ events left, Completes start (program defaultLimit files) events left →
      let waiting := Session.ofEnvironment left o.history d
      loaded = ⟨.ok (), left, events⟩ ∧
        (∀ p, waiting.restoreHistory = .error p →
          launch = ⟨.failed (.disk p), [], [], d, log events⟩) ∧
        ∀ opened, waiting.restoreHistory = .ok opened →
          let t : Dialogue :=
            (handled requests).foldl (fun t r => t.followedBy (t.session.reply r)) (.start opened)
          opened.env = left ∧ opened.disk = d ∧
            launch = ⟨.finished, t.output ++ ['\n'], t.reported, t.session.disk,
              log (events ++ t.events)⟩) ∧
    (∀ s : FailingFile start files,
      let failure := s.stop.failure.addNote (.whileLoading s.path)
      let trouble : Trouble := .fault (.failure failure)
      let last := s.stop.item.run s.stop.reached
      let events := s.events ++ (s.stop.events ++ last.events)
      loaded = ⟨.error trouble, last.env, events⟩ ∧
        launch = ⟨.failed trouble, [], [], d, log events⟩ ∧
        failure.notes.map Note.text =
          s.stop.failure.notes.map Note.text ++ ["while loading " ++ s.path] ∧
        (∃ (values : List Expr) (rest : List (Except Failure Expr)),
          values.length = s.stop.before.length ∧
            (runText s.text s.opened).elements =
              values.map .ok ++ .error s.stop.failure :: rest) ∧
        ∀ c, s.stop.item = .unreadable c →
          c = .tooDeep defaultLimit ∧ s.stop.after = [] ∧
            s.stop.before = (readText defaultLimit s.text).exprs.map .expression) ∧
    ((∃ events left, Completes start (program defaultLimit files) events left) ∨
      Nonempty (FailingFile start files)) := by
  intro start loaded launch log
  have hproper : start.Proper := Environment.proper_ofRoot_empty defaultLimit
  have hlaunch : launch =
      let l := Launch.ofLoaded loaded o.history requests d
      { l with log := if o.debug then l.log else [] } := by
    show Launch.ofArguments arguments requests d = _
    rw [Launch.ofArguments, hparse]
    show Launch.ofOptions o requests d = _
    rw [Launch.ofOptions]
    cases o.debug with
    | true => rfl
    | false => rfl
  refine ⟨fun events left h => ?_, fun s => ?_, completes_or_failingFile files hproper⟩
  · have hloaded : loaded = ⟨.ok (), left, events⟩ := by
      have hrun := loadFiles_of_completes hd h []
      rw [List.append_nil, ← hfiles] at hrun
      simpa [loadFiles] using hrun
    have hleft : left.Proper := h.proper (fun i hi => proper_of_mem_program hi) hproper
    rw [hloaded] at hlaunch ⊢
    refine ⟨rfl, fun p hp => ?_, fun opened hopened => ?_⟩
    · rw [hlaunch, Launch.ofLoaded_of_ok requests rfl, Launch.ofSession_of_unrestored _ _ hp]
    · have heq := Session.eq_of_restoreHistory hopened
      refine ⟨congrArg Session.env heq, congrArg Session.disk heq, ?_⟩
      rw [hlaunch, Launch.ofLoaded_of_ok requests rfl,
        Launch.ofSession_of_restored _ _ hleft hopened]
      rfl
  · have hloaded := loadFiles_of_failingFile hd s
    rw [← hfiles] at hloaded
    refine ⟨hloaded, ?_, ?_, elements_of_stop s.stop, fun c hc => ?_⟩
    · rw [hlaunch, Launch.ofLoaded_of_error requests (congrArg Run.result hloaded)]
      show Launch.mk _ _ _ _ (if o.debug then Event.log loaded.events else []) = _
      rw [show loaded.events = _ from congrArg Run.events hloaded]
    · exact List.map_append
    · have hlimit : s.opened.maxDepth = defaultLimit := s.completes.maxDepth
      apply before_unreadable
      calc items defaultLimit s.text = items s.opened.maxDepth s.text := by rw [hlimit]
        _ = s.stop.before ++ s.stop.item :: s.stop.after := s.stop.split
        _ = s.stop.before ++ .unreadable c :: s.stop.after := by rw [hc]

/-- Of two files, the second expression of the second one has no value: the definition in the first
has been made, and nothing is answered. With the first file alone a line that asks for the defined
name is answered, and saved in the history. -/
theorem ofArguments_files_fails_or_opens :
    let d : Disk := ⟨[(⟨.above 0, ["f"]⟩, .file (.ofText "(def x true)")),
      (⟨.above 0, ["g"]⟩, .file (.ofText "x y"))]⟩
    let files : List (Text × Text) := [("f", "(def x true)"), ("g", "x y")]
    (Options.parse ["f", "g"] = .run ⟨["f", "g"], [], false⟩ ∧ Holds d files ∧
      Launch.ofArguments ["f", "g"] [.ok "x"] d =
        ⟨.failed (.fault (.failure ⟨.unbound "y", [.whileLoading "g"]⟩)), [], [], d, []⟩) ∧
    Options.parse ["f"] = .run ⟨["f"], [], false⟩ ∧ Holds d (files.take 1) ∧
      Launch.ofArguments ["f"] [.ok "x"] d =
        ⟨.finished, "> true\n> \n", [],
          ⟨d.entries ++ [(⟨.above 0, [".sexpr_history"]⟩, .file (.ofText "x\n"))]⟩, []⟩ := by
  intro d files
  have hholds : Holds d files := by
    intro f hf
    rcases List.mem_cons.mp hf with rfl | hf
    · decide
    · rw [List.mem_singleton.mp hf]
      decide
  let env := Launch.freshEnvironment
  let left := { env with scopes := env.scopes.push (Frame.empty.put "x" (.bool true)) }
  -- the expressions of the two files, and of the line
  have hx : Plain (.sym "x") := ⟨Or.inr rfl, by decide, by decide, rfl⟩
  have hfirst : items defaultLimit "(def x true)" =
      [.expression (.list [.sym "def", .sym "x", .bool true])] := by
    have hdefinition : Readable (.list [.sym "def", .sym "x", .bool true]) := by
      have hdef : Plain (.sym "def") := ⟨Or.inr rfl, by decide, by decide, rfl⟩
      rw [readable_list]
      simp only [List.forall_mem_cons]
      exact ⟨hdef.readable, hx.readable, (plain_bool true).readable, by simp⟩
    have hread : readText defaultLimit "(def x true)" = _ :=
      hdefinition.readText_display (by decide)
    rw [items, hread]
    rfl
  have hsecond : items defaultLimit "x y" = [.expression (.sym "x"), .expression (.sym "y")] := by
    rw [items, readText, show tokenize "x y" = [['x'], ['y']] by decide,
      readTokens_atom (by decide), readTokens_atom (by decide), readTokens]
    rfl
  have hline : readText defaultLimit "x" = ⟨[.sym "x"], none⟩ := hx.alone.readText_display _
  have hcompletes : Completes env (program defaultLimit (files.take 1))
      (evaluate (.list [.sym "def", .sym "x", .bool true]) env).events left := by
    show Completes env (items defaultLimit "(def x true)" ++ []) _ _
    rw [hfirst]
    exact .cons rfl (.nil _)
  have hparse : Options.parse ["f", "g"] = .run ⟨["f", "g"], [], false⟩ := by decide
  have hparse' : Options.parse ["f"] = .run ⟨["f"], [], false⟩ := by decide
  have hholds' : Holds d (files.take 1) := fun f hf => hholds f (List.mem_of_mem_take hf)
  refine ⟨⟨hparse, hholds, ?_⟩, hparse', hholds', ?_⟩
  · let s : FailingFile env files :=
      { earlier := files.take 1, path := "g", text := "x y", later := [], split := rfl,
        events := _, opened := left, completes := hcompletes
        stop :=
          { before := [.expression (.sym "x")], item := .expression (.sym "y"), after := [],
            split := hsecond, events := [], reached := left, completes := .cons rfl (.nil left),
            failure := ⟨.unbound "y", []⟩, fails := rfl } }
    obtain ⟨-, hfails, -⟩ := ofArguments_files hparse rfl hholds [.ok "x"]
    obtain ⟨-, hlaunch, -⟩ := hfails s
    exact hlaunch
  · let opened : Session :=
      { Session.ofEnvironment left [] d with
        history := { History.ofName [] with limit := some History.fileLimit } }
    obtain ⟨hopens, -⟩ := ofArguments_files hparse' rfl hholds' [.ok "x"]
    obtain ⟨-, -, hanswered⟩ := hopens _ left hcompletes
    obtain ⟨-, -, hlaunch⟩ := hanswered opened rfl
    have hpasses : opened.Passes (.ok "x") "x" :=
      ⟨"x", rfl, by decide, by decide, by decide, rfl⟩
    have hreply : opened.reply (.ok "x") =
        ⟨{ (opened.enter "x").session with env := left }, "> true\n", [], []⟩ := by
      have hlimit : opened.env.maxDepth = defaultLimit := rfl
      rw [Session.reply_of_passes hpasses, runText_eq, hlimit, hline]
      rfl
    have hdialogue : (handled [.ok "x"]).foldl (fun t r => t.followedBy (t.session.reply r))
        (Dialogue.start opened) =
          ⟨{ (opened.enter "x").session with env := left }, "> true\n> ", [], []⟩ := by
      show ((Dialogue.start opened).followedBy (opened.reply (.ok "x"))).followedBy
        ((opened.reply (.ok "x")).session.reply (.error .endOfInput)) = _
      rw [Dialogue.start_followedBy, hreply]
      rfl
    have hsaved : (opened.enter "x").session.disk.entries =
        d.entries ++ [(⟨.above 0, [".sexpr_history"]⟩, .file (.ofText "x\n"))] := by decide
    rw [hlaunch, hdialogue]
    exact congrArg (fun entries => Launch.mk .finished "> true\n> \n" [] ⟨entries⟩ []) hsaved

end MiniLisp
