import MiniLisp.Proofs.Scope.Stack
import MiniLisp.Proofs.Session.Shared

set_option autoImplicit false

/-! # Completion enumerates a snapshot

The names that a text may be completed to are settled when the first completion is asked for: those
of the built-in forms in increasing order and then, in increasing order, the others that are bound
in some frame at that time (`Enumerates`). Whatever is done with the session afterwards, the `k`-th
completion is the `k`-th of these names, until the first one is asked for again
(`completion_enumerates`). The session keeps them for this, and nothing else that is done with it
touches what it keeps (`candidates_use`).
-/

namespace MiniLisp

/-! ## Names in order -/

theorem Builtin.mem_names_iff {n : Text} : n ∈ Builtin.names ↔ ∃ b : Builtin, b.name = n := by
  rw [names, List.mem_map]
  exact ⟨fun ⟨b, _, h⟩ => ⟨b, h⟩, fun ⟨b, h⟩ => ⟨b, b.mem_all, h⟩⟩

theorem Builtin.pairwise_names : Builtin.names.Pairwise Text.Before := by
  have hle : Builtin.names.Pairwise fun m n => Text.le m n ∧ m ≠ n := by decide
  exact hle.imp fun h => Text.before_of_le_of_ne h.1 h.2

/-- Whether names are those that start with a text, each once: those of the built-in forms in
increasing order, and behind them, in increasing order, the others that some frame binds. -/
structure Enumerates (start : Text) (s : Scopes) (names : List Text) : Prop where
  nodup : names.Nodup
  mem_iff : ∀ n, n ∈ names ↔
    start <+: n ∧ ((∃ b : Builtin, b.name = n) ∨ ∃ f ∈ s.frames, f.binds n = true)
  ordered : ∃ forms others, names = forms ++ others ∧
    (∀ n ∈ forms, ∃ b : Builtin, b.name = n) ∧ (∀ n ∈ others, ¬ ∃ b : Builtin, b.name = n) ∧
    forms.Pairwise Text.Before ∧ others.Pairwise Text.Before

theorem not_contains_names_iff {n : Text} :
    (!Builtin.names.contains n) = true ↔ ¬ ∃ b : Builtin, b.name = n := by
  rw [Bool.not_eq_true', ← Bool.not_eq_true, List.contains_iff_mem, Builtin.mem_names_iff]

theorem mem_completionNames_iff {bound : List Text} {n : Text} :
    n ∈ completionNames bound ↔ (∃ b : Builtin, b.name = n) ∨ n ∈ bound := by
  rw [completionNames, List.mem_append, List.mem_filter, not_contains_names_iff,
    Builtin.mem_names_iff]
  tauto

theorem enumerates_completions (start : Text) (s : Scopes) :
    Enumerates start s (completions s.names start) := by
  set forms := Builtin.names.filter start.isPrefixOf with hforms
  set others := (s.names.filter fun n => !Builtin.names.contains n).filter start.isPrefixOf
    with hothers
  have hsplit : completions s.names start = forms ++ others := List.filter_append _ _
  have hform : ∀ n ∈ forms, ∃ b : Builtin, b.name = n := fun n hn =>
    Builtin.mem_names_iff.mp (List.mem_of_mem_filter hn)
  have hother : ∀ n ∈ others, ¬ ∃ b : Builtin, b.name = n := fun n hn =>
    not_contains_names_iff.mp (List.mem_filter.mp (List.mem_of_mem_filter hn)).2
  have hformsOrdered : forms.Pairwise Text.Before := Builtin.pairwise_names.filter _
  have hothersOrdered : others.Pairwise Text.Before :=
    ((Text.pairwise_sortDistinct _).filter _).filter _
  refine ⟨?_, ?_, forms, others, hsplit, hform, hother, hformsOrdered, hothersOrdered⟩
  -- no name is in both parts, and in neither it comes again
  · rw [hsplit, List.nodup_append]
    refine ⟨hformsOrdered.nodup, hothersOrdered.nodup, ?_⟩
    rintro n hn m hm rfl
    exact hother n hm (hform n hn)
  · intro n
    rw [completions, List.mem_filter, mem_completionNames_iff, Scopes.mem_names_iff_binds,
      List.isPrefixOf_iff_prefix, and_comm]

/-- The parts of a list are told by a property that one of them has and the other has not. -/
theorem mem_parts_iff {p : Text → Prop} {ms ns : List Text} (hms : ∀ m ∈ ms, p m)
    (hns : ∀ n ∈ ns, ¬ p n) (t : Text) :
    (t ∈ ms ↔ t ∈ ms ++ ns ∧ p t) ∧ (t ∈ ns ↔ t ∈ ms ++ ns ∧ ¬ p t) := by
  rw [List.mem_append]
  constructor
  · exact ⟨fun h => ⟨Or.inl h, hms t h⟩, fun ⟨h, hp⟩ => h.resolve_right fun hn => hns t hn hp⟩
  · exact ⟨fun h => ⟨Or.inr h, hns t h⟩, fun ⟨h, hp⟩ => h.resolve_left fun hm => hp (hms t hm)⟩

/-- There is one such list of names. -/
theorem Enumerates.unique {start : Text} {s : Scopes} {names names' : List Text}
    (h : Enumerates start s names) (h' : Enumerates start s names') : names = names' := by
  obtain ⟨forms, others, rfl, hform, hother, hforms, hothers⟩ := h.ordered
  obtain ⟨forms', others', rfl, hform', hother', hforms', hothers'⟩ := h'.ordered
  have hparts := mem_parts_iff hform hother
  have hparts' := mem_parts_iff hform' hother'
  have hsame : ∀ n, n ∈ forms ++ others ↔ n ∈ forms' ++ others' :=
    fun n => (h.mem_iff n).trans (h'.mem_iff n).symm
  have hformsEq : forms = forms' := by
    refine Text.eq_of_pairwise_before hforms hforms' fun n => ?_
    rw [(hparts n).1, (hparts' n).1, hsame]
  have hothersEq : others = others' := by
    refine Text.eq_of_pairwise_before hothers hothers' fun n => ?_
    rw [(hparts n).2, (hparts' n).2, hsame]
  rw [hformsEq, hothersEq]

/-! ## What is done with a session -/

namespace Session

/-- What is done with a session: something that it does itself, a command that it carries out, a
text that it runs, a change of its environment from outside, or a completion that is asked for. -/
inductive Use where
  | act (a : Action)
  | command (c : Command)
  | run (t : Text)
  | change (env : Environment)
  | complete (start : Text) (k : ℤ)

/-- The session afterwards. -/
def use (s : Session) : Use → Session
  | .act a => (s.perform a).session
  | .command c => (s.obey c).session
  | .run t => (s.runLine t).session
  | .change env => { s with env }
  | .complete start k => (s.completion start k).2

/-- The session after all that is done with it. -/
def useAll (s : Session) (us : List Use) : Session := us.foldl use s

/-- Whether the first completion of a text is asked for. -/
def Use.Restarts : Use → Prop
  | .complete _ k => k = 0
  | _ => False

theorem candidates_storeHistory {s s' : Session} (h : s.storeHistory = .ok s') :
    s'.candidates = s.candidates := by
  rw [storeHistory] at h
  cases hstore : s.history.store s.disk with
  | error p =>
      rw [hstore] at h
      contradiction
  | ok left =>
      rw [hstore] at h
      obtain rfl := Except.ok.inj h
      rfl

theorem candidates_enter (s : Session) (line : Text) :
    (s.enter line).session.candidates = s.candidates := by
  simp only [enter]
  split
  · rfl
  split
  · rfl
  split
  · rfl
  · next s' h =>
      have hstored := candidates_storeHistory h
      exact hstored

theorem candidates_obey (s : Session) (c : Command) :
    (s.obey c).session.candidates = s.candidates := by
  cases c <;> rfl

theorem candidates_answer (s : Session) (line : Text) :
    (s.answer line).session.candidates = s.candidates := by
  unfold answer
  split
  · exact s.candidates_obey _
  split
  · rfl
  · rfl

theorem candidates_takeLine (s : Session) (request : Terminal.Request) :
    (s.takeLine request).session.candidates = s.candidates := by
  cases request with
  | error p => rfl
  | ok line => exact s.candidates_enter (Text.strip line)

theorem candidates_respond (s : Session) (request : Terminal.Request) :
    (s.respond request).session.candidates = s.candidates := by
  rw [respond]
  split
  · exact s.candidates_takeLine request
  · exact (candidates_answer _ _).trans (s.candidates_takeLine request)

theorem candidates_perform (s : Session) (a : Action) :
    (s.perform a).session.candidates = s.candidates := by
  cases a with
  | start =>
      rw [perform, restoreHistory]
      cases s.history.restore s.disk <;> rfl
  | input request => exact s.candidates_takeLine request
  | step request => exact s.candidates_respond request
  | save =>
      rw [perform]
      split
      · next s' h => exact candidates_storeHistory h
      · rfl

/-- **A session keeps the names to choose from** until the first completion is asked for. -/
theorem candidates_use (s : Session) {u : Use} (hu : ¬ u.Restarts) :
    (s.use u).candidates = s.candidates := by
  cases u with
  | act a => exact s.candidates_perform a
  | command c => exact s.candidates_obey c
  | run t => rfl
  | change env => rfl
  | complete start k =>
      have hk : k ≠ 0 := hu
      rw [use, completion, if_neg hk]

theorem candidates_useAll (s : Session) {us : List Use} (hus : ∀ u ∈ us, ¬ u.Restarts) :
    (s.useAll us).candidates = s.candidates := by
  induction us generalizing s with
  | nil => rfl
  | cons u us ih =>
      obtain ⟨hu, hus⟩ := List.forall_mem_cons.mp hus
      exact (ih (s.use u) hus).trans (s.candidates_use hu)

/-! ## Completions -/

/-- An item that is looked up behind a check of the length is there or is none. -/
theorem item_of_natCast {α : Type} (items : List α) (k : ℕ) :
    (if (k : ℤ) < items.length then (Position.item items k).map some else .ok none) =
      .ok items[k]? := by
  by_cases h : k < items.length
  · have hk : ¬ (k : ℤ) < 0 := by omega
    have hitem : Position.item items k = .ok items[k] := by
      simp only [Position.item, Position.fromStart, if_neg hk, Int.toNat_natCast,
        List.getElem?_eq_getElem h]
    rw [if_pos (by omega), hitem, List.getElem?_eq_getElem h]
    rfl
  · rw [if_neg (by omega), List.getElem?_eq_none (by omega)]

/-- The first completion is the first of the names to choose from, which are settled by it. -/
theorem completion_zero (s : Session) (start : Text) :
    s.completion start 0 = (.ok (completions s.env.scopes.names start)[0]?,
      { s with candidates := completions s.env.scopes.names start }) := by
  rw [completion, if_pos rfl, ← item_of_natCast]
  rfl

/-- Another completion is one of the names that were settled before. -/
theorem completion_of_ne_zero (s : Session) (t : Text) {k : ℕ} (hk : k ≠ 0) :
    (s.completion t k).1 = .ok s.candidates[k]? := by
  have hlater : (k : ℤ) ≠ 0 := by omega
  rw [completion, if_neg hlater]
  exact item_of_natCast s.candidates k

/-- **Completion enumerates a snapshot of the names.** There is a list of the names that start with
the text, those of the built-in forms first, both in increasing order and each once, such that the
first completion is its first name, and whatever is done then with the session, the `k`-th
completion of any text is its `k`-th name, if it has so many, until the first one is asked for
again. -/
theorem completion_enumerates (s : Session) (start : Text) :
    ∃ names, Enumerates start s.env.scopes names ∧
      (s.completion start 0).1 = .ok names[0]? ∧
      ∀ us : List Use, (∀ u ∈ us, ¬ u.Restarts) → ∀ (t : Text) (k : ℕ), k ≠ 0 →
        (((s.completion start 0).2.useAll us).completion t k).1 = .ok names[k]? := by
  refine ⟨completions s.env.scopes.names start, enumerates_completions start s.env.scopes, ?_, ?_⟩
  · rw [completion_zero]
  · intro us hus t k hk
    rw [completion_of_ne_zero _ t hk, candidates_useAll _ hus, completion_zero]

/-- Names that two frames bind, or that a built-in form has, come once, and they come although the
frames are gone and another name has been defined. -/
theorem completion_enumerates_shadowed :
    let root : Frame := .ofBindings [("x", .nil), ("lex", .nil), ("let", .nil)]
    let inner : Frame := .ofBindings [("list", .nil), ("lex", .nil)]
    let env : Environment := ⟨(Scopes.ofRoot root).push inner, 0, 100⟩
    let s := ofEnvironment env "h" ⟨[]⟩
    let us : List Use := [.change (.ofRoot .empty 100), .run "(def lambda 1)", .complete "x" 7]
    let left := (s.completion "l" 0).2.useAll us
    (∀ u ∈ us, ¬ u.Restarts) ∧ (s.completion "l" 0).1 = .ok (some "let") ∧
      (left.completion "x" 1).1 = .ok (some "lex") ∧
      (left.completion "l" 2).1 = .ok (some "list") ∧ (left.completion "l" 3).1 = .ok none := by
  intro root inner env s us left
  obtain ⟨names, henum, hfirst, hlater⟩ := completion_enumerates s "l"
  have hus : ∀ u ∈ us, ¬ u.Restarts := by simp [us, Use.Restarts]
  have hnames : names = [("let" : Text), ("lex" : Text), ("list" : Text)] := by
    have hcompletions : completions s.env.scopes.names "l" =
        [("let" : Text), ("lex" : Text), ("list" : Text)] := by cbv
    exact henum.unique (hcompletions ▸ enumerates_completions "l" s.env.scopes)
  subst hnames
  exact ⟨hus, hfirst, hlater us hus "x" 1 (by decide), hlater us hus "l" 2 (by decide),
    hlater us hus "l" 3 (by decide)⟩

end Session

end MiniLisp
