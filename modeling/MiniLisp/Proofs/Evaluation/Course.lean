import Mathlib.Tactic
import MiniLisp.Evaluation

set_option autoImplicit false

/-! # What a course of events tells

The events of an evaluation say which definitions last and which values were assigned. A
definition lasts if it takes place outside the bodies of all the `let`s of the course
(`Event.outside`, `Event.lasting`); the value assigned last to a name in a frame is
`Event.lastAssigned`.

Both are read off one event after the other, so they are told of a composed course by its parts.
For what is outside this needs that the first part leaves every body that it enters (`Nested`),
which is so for every evaluation.
-/

namespace MiniLisp

namespace Event

/-- Whether an event marks the beginning or the end of a body. -/
def isBodyMark : Event → Bool
  | .bodyEntered | .bodyLeft => true
  | _ => false

/-- A course of events that leaves every body that it enters. -/
inductive Nested : List Event → Prop
  | nil : Nested []
  | cons {e : Event} {events : List Event} : e.isBodyMark = false → Nested events →
      Nested (e :: events)
  | body {inner events : List Event} : Nested inner → Nested events →
      Nested (.bodyEntered :: (inner ++ .bodyLeft :: events))

theorem Nested.append {events more : List Event} (h : Nested events) (hm : Nested more) :
    Nested (events ++ more) := by
  induction h with
  | nil => exact hm
  | cons he _ ih => exact .cons he ih
  | body hi _ _ ih =>
      rw [List.cons_append, List.append_assoc]
      exact .body hi ih

/-! ## Events outside the bodies -/

/-- The events that stand outside all bodies, where the first one stands in so many. -/
def outsideFrom : Nat → List Event → List Event
  | _, [] => []
  | depth, .bodyEntered :: events => outsideFrom (depth + 1) events
  | depth, .bodyLeft :: events => outsideFrom (depth - 1) events
  | 0, e :: events => e :: outsideFrom 0 events
  | depth + 1, _ :: events => outsideFrom (depth + 1) events

/-- The events that stand outside the bodies of all the `let`s of a course of events. -/
def outside (events : List Event) : List Event := outsideFrom 0 events

theorem outsideFrom_cons {e : Event} (he : e.isBodyMark = false) (depth : Nat)
    (events : List Event) :
    outsideFrom depth (e :: events) =
      (if depth = 0 then [e] else []) ++ outsideFrom depth events := by
  cases e <;> cases depth <;> first
    | contradiction
    | rfl

theorem outside_cons {e : Event} (he : e.isBodyMark = false) (events : List Event) :
    outside (e :: events) = e :: outside events := outsideFrom_cons he 0 events

theorem outsideFrom_append {events : List Event} (h : Nested events) (depth : Nat)
    (more : List Event) :
    outsideFrom depth (events ++ more) =
      (if depth = 0 then outside events else []) ++ outsideFrom depth more := by
  induction h generalizing depth more with
  | nil => simp [outside, outsideFrom]
  | @cons e events he _ ih =>
      rw [List.cons_append, outsideFrom_cons he, ih, outside_cons he]
      split
      · rfl
      · rfl
  | @body inner events _ _ ihi ih =>
      -- a body is passed over, at whatever depth it is entered
      have hskip : ∀ (d : Nat) (rest : List Event),
          outsideFrom d (.bodyEntered :: (inner ++ .bodyLeft :: rest)) = outsideFrom d rest := by
        intro d rest
        rw [outsideFrom, ihi, if_neg (Nat.succ_ne_zero d), outsideFrom]
        rfl
      rw [List.cons_append, List.append_assoc, List.cons_append, hskip, ih, outside, outside,
        hskip]

theorem outside_append {events : List Event} (h : Nested events) (more : List Event) :
    outside (events ++ more) = outside events ++ outside more := outsideFrom_append h 0 more

/-- Nothing that happens in a body is outside. -/
theorem outside_body {inner : List Event} (h : Nested inner) (events : List Event) :
    outside (.bodyEntered :: (inner ++ .bodyLeft :: events)) = outside events := by
  rw [outside, outsideFrom, outsideFrom_append h, if_neg (Nat.succ_ne_zero 0), outsideFrom]
  rfl

/-! ## Definitions that last -/

/-- Whether an event is a definition. -/
def isDefinition : Event → Bool
  | .defined _ => true
  | _ => false

/-- The number of definitions that take place outside the bodies of all the `let`s of a course of
events. -/
def lasting (events : List Event) : Nat := (outside events).countP isDefinition

theorem lasting_append {events : List Event} (h : Nested events) (more : List Event) :
    lasting (events ++ more) = lasting events + lasting more := by
  rw [lasting, outside_append h, List.countP_append]
  rfl

/-- What is defined in a body does not last. -/
theorem lasting_body {inner : List Event} (h : Nested inner) (events : List Event) :
    lasting (.bodyEntered :: (inner ++ .bodyLeft :: events)) = lasting events := by
  rw [lasting, outside_body h]
  rfl

/-! ## Values that are assigned -/

/-- The value that an event assigns to a name in the frame at a level. -/
def assigns? (n : Text) (level : Nat) : Event → Option Expr
  | .assigned m v l => if m = n ∧ l = level then some v else none
  | _ => none

/-- The value that a course of events assigns last to a name in the frame at a level. -/
def lastAssigned (n : Text) (level : Nat) (events : List Event) : Option Expr :=
  (events.filterMap (assigns? n level)).getLast?

theorem lastAssigned_append (n : Text) (level : Nat) (events more : List Event) :
    lastAssigned n level (events ++ more) =
      (lastAssigned n level more).or (lastAssigned n level events) := by
  rw [lastAssigned, List.filterMap_append, List.getLast?_append]
  rfl

theorem lastAssigned_eq_none {n : Text} {level : Nat} {events : List Event}
    (h : ∀ e ∈ events, assigns? n level e = none) : lastAssigned n level events = none := by
  rw [lastAssigned, List.getLast?_eq_none_iff, List.filterMap_eq_nil_iff]
  exact h

theorem lastAssigned_eq_none_of_not_mem {n : Text} {level : Nat} {events : List Event}
    (h : ∀ v, .assigned n v level ∉ events) : lastAssigned n level events = none := by
  apply lastAssigned_eq_none
  intro e he
  cases e with
  | assigned m v l =>
      rw [assigns?, if_neg]
      rintro ⟨rfl, rfl⟩
      exact h v he
  | _ => rfl

/-! ## Events that change nothing -/

/-- An event that tells of no definition, no assignment, and no body. -/
def isQuiet : Event → Bool
  | .bodyEntered | .bodyLeft | .defined _ | .assigned .. => false
  | _ => true

theorem nested_of_isQuiet {events : List Event} (h : ∀ e ∈ events, e.isQuiet = true) :
    Nested events := by
  induction events with
  | nil => exact .nil
  | cons e events ih =>
      refine .cons ?_ (ih (fun f hf => h f (List.mem_cons_of_mem _ hf)))
      have he := h e (List.mem_cons_self ..)
      cases e <;> first | rfl | cases he

theorem lasting_of_isQuiet {events : List Event} (h : ∀ e ∈ events, e.isQuiet = true) :
    lasting events = 0 := by
  induction events with
  | nil => rfl
  | cons e events ih =>
      have he := h e (List.mem_cons_self ..)
      have ht := ih (fun f hf => h f (List.mem_cons_of_mem _ hf))
      cases e <;> first | exact ht | cases he

theorem lastAssigned_of_isQuiet {events : List Event} (h : ∀ e ∈ events, e.isQuiet = true)
    (n : Text) (level : Nat) : lastAssigned n level events = none := by
  refine lastAssigned_eq_none (fun e he => ?_)
  have := h e he
  cases e <;> first | rfl | cases this

end Event

theorem Eval.isQuiet_of_mem_popEvents {n size : Nat} {e : Event} (h : e ∈ popEvents n size) :
    e.isQuiet = true := by
  obtain ⟨k, -, rfl⟩ := List.mem_map.mp h
  rfl

/-- Nothing that a `let` does with its own frame lasts. -/
theorem Event.lasting_within {inner : List Event} (h : Nested inner) (names : List Text)
    (k n size : Nat) :
    lasting (.pushed names k ::
      (.bodyEntered :: (inner ++ .bodyLeft :: Eval.popEvents n size))) = 0 := by
  show lasting (.bodyEntered :: _) = 0
  rw [lasting_body h]
  exact lasting_of_isQuiet (fun e he => Eval.isQuiet_of_mem_popEvents he)

end MiniLisp
