import MiniLisp.Proofs.Evaluation.Values
import MiniLisp.Proofs.Program.Nesting
import MiniLisp.Proofs.Reader.RoundTrip

set_option autoImplicit false

/-! # Values that are entered again

The values that come up where only texts are run are truth values, numbers, strings and the empty
list: nothing in the language quotes a name or a list that is not empty. Entered as a text, such a
value is read as itself and evaluates to itself.

What has to be followed through a run is how the strings are spelled. A string comes from a token
of some text, and this token, read on its own, is one token again, even if the end of the text has
cut it off (`alone_of_mem_readText`). The empty list can only be entered where the limit allows a
list at all; where it does not, no list is read in the first place.
-/

namespace MiniLisp

open MiniLisp.Expr Scopes Transcript

/-! ## Values that can be entered -/

/-- Whether an expression is a truth value, a number, a string or the empty list. -/
def Expr.isSelfEvaluating : Expr → Bool
  | .bool _ | .num _ | .str _ | .list [] => true
  | _ => false

theorem evaluate_of_isSelfEvaluating {v : Expr} (h : v.isSelfEvaluating) (env : Environment) :
    evaluate v env = ⟨.ok v, env, []⟩ := by
  cases v with
  | bool b => rfl
  | num x => rfl
  | str s => rfl
  | list es =>
      cases es with
      | nil => rfl
      | cons e es => contradiction
  | _ => contradiction

theorem leaves_of_isSelfEvaluating {v : Expr} (h : v.isSelfEvaluating) :
    ∀ l ∈ v.leaves, l.foreign? = none := by
  cases v with
  | list es =>
      cases es with
      | nil => simp [leaves, leavesOfItems]
      | cons e es => contradiction
  | sym n => contradiction
  | foreign v => contradiction
  | _ => simp [leaves, foreign?]

/-- A value that evaluates to itself and is read from its own text under a limit. -/
structure Reenters (limit : ℤ) (v : Expr) : Prop where
  self : v.isSelfEvaluating
  read : readText limit v.display = ⟨[v], none⟩

namespace Reenters

variable {limit : ℤ} {v : Expr}

theorem of_alone (h : Alone v) (hself : v.isSelfEvaluating) : Reenters limit v :=
  ⟨hself, h.readText_display limit⟩

theorem bool (b : Bool) : Reenters limit (.bool b) := of_alone (plain_bool b).alone rfl

theorem num (x : Binary64) : Reenters limit (.num x) := of_alone (plain_num x).alone rfl

/-- The empty list can be entered where a list can. -/
theorem nil (hlimit : 0 < limit) : Reenters limit .nil := by
  have hreadable : Readable .nil := readable_list.mpr (by simp)
  have hnesting : (Expr.nil.nesting : ℤ) ≤ limit := hlimit
  exact ⟨rfl, hreadable.readText_display hnesting⟩

theorem foreign?_eq_none (h : Reenters limit v) : v.foreign? = none :=
  Expr.foreign?_eq_none (leaves_of_isSelfEvaluating h.self)

/-- **A value is entered again**: its text has this one value and changes nothing. -/
theorem runText_display {env : Environment} (h : Reenters env.maxDepth v) :
    runText v.display env = ⟨[.ok v], none, env, []⟩ := by
  rw [runText_eq, h.read]
  simp [runExprs, evaluate_of_isSelfEvaluating h.self, refusal, followedBy]

end Reenters

/-! ## The values of a run -/

/-- Expressions whose leaves stand alone, and the values that can be entered. -/
def entered {limit : ℤ} (hlimit : 0 < limit) : Vocabulary where
  code e := ∀ l ∈ e.leaves, Alone l
  value := Reenters limit
  code_item h he l hl := h l (mem_leaves_list.mpr ⟨_, he, hl⟩)
  code_not_foreign h := Expr.foreign?_eq_none (fun l hl => (h l hl).foreign?_eq_none)
  value_not_foreign h := h.foreign?_eq_none
  value_bool := .bool
  value_num := .num
  value_str h := .of_alone (h _ (by simp [leaves])) rfl
  value_nil := .nil hlimit

/-- The value of an expression that was read can be entered, if all the values before can. -/
theorem keepsTo_of_mem_readText {limit : ℤ} {t : Text} {e : Expr}
    (he : e ∈ (readText limit t).exprs) {env : Environment}
    (henv : AllValues (Reenters limit) env.scopes) :
    KeepsTo (Reenters limit) (Reenters limit) (evaluate e env) := by
  have hleaves := alone_of_mem_readText he
  by_cases hlimit : 0 < limit
  · exact (entered hlimit).evaluate hleaves henv
  -- no list was read, so the expression is its own value or the name of one
  · cases e with
    | list es =>
        have hn := nesting_of_mem_readText he
        rw [nesting] at hn
        omega
    | bool b => exact .of_ok henv (.bool b)
    | num x => exact .of_ok henv (.num x)
    | str s => exact .of_ok henv (.of_alone (hleaves _ (by simp [leaves])) rfl)
    | sym n => exact Confined.lookup n env henv
    | foreign v =>
        have := (hleaves (.foreign v) (by simp [leaves])).foreign?_eq_none
        contradiction

/-- What a run of a text keeps: the values can be entered under the limit, which stays. -/
def Enterable (limit : ℤ) (env : Environment) : Prop :=
  AllValues (Reenters limit) env.scopes ∧ env.maxDepth = limit

theorem meets_runText {limit : ℤ} (t : Text) {env : Environment} (henv : Enterable limit env) :
    Meets (Enterable limit) (fun x => ∀ v, x = .ok v → Reenters limit v) (fun _ => False)
      (runText t env) := by
  rw [runText_eq, henv.2]
  apply Meets.followedBy
  · refine meets_runExprs (fun e he env' henv' => ?_) henv
    have hrun := keepsTo_of_mem_readText he henv'.1
    have hkept : Enterable limit (evaluate e env').env :=
      ⟨hrun.values, (maxDepth_evaluate e env').trans henv'.2⟩
    exact meets_runExprs_singleton hkept hrun.ok hrun.not_foreign
  · exact fun env' henv' => meets_refusal _ henv'

theorem meets_runTexts {limit : ℤ} (ts : List Text) {env : Environment}
    (henv : Enterable limit env) :
    Meets (Enterable limit) (fun x => ∀ v, x = .ok v → Reenters limit v) (fun _ => False)
      (runTexts ts env) := by
  induction ts generalizing env with
  | nil => exact meets_empty henv
  | cons t ts ih =>
      rw [runTexts]
      exact (meets_runText t henv).followedBy (fun env' henv' => ih henv')

theorem enterable_empty (limit : ℤ) : Enterable limit (.ofRoot .empty limit) := by
  refine ⟨?_, rfl⟩
  intro f hf b hb
  rw [List.mem_singleton.mp hf] at hb
  cases hb

/-- **Values can be entered again.** Texts are run in turn, from an environment in which nothing is
bound. Whatever fails on the way, no value in a result or in a frame is a name or a list with items,
every value has a text, and running this text afterwards has this value as its one result and
changes nothing. -/
theorem runTexts_reenter (limit : ℤ) (ts : List Text) :
    let left := runTexts ts (.ofRoot .empty limit)
    left.escaped = none ∧
      (∀ v, .ok v ∈ left.elements →
        v.isSelfEvaluating ∧ ∃ s, v.shown = .ok s ∧ (v == v) = true ∧
          runText s left.env = ⟨[.ok v], none, left.env, []⟩) ∧
      ∀ f ∈ left.env.scopes.frames, ∀ b ∈ f.bindings, b.2.isSelfEvaluating := by
  intro left
  have hleft := meets_runTexts ts (enterable_empty limit)
  obtain ⟨hvalues, hlimit⟩ := hleft.env
  refine ⟨?_, ?_, fun f hf b hb => (hvalues f hf b hb).self⟩
  · exact Option.eq_none_iff_forall_ne_some.mpr hleft.escaped
  · intro v hv
    have hre := hleft.elements _ hv v rfl
    refine ⟨hre.self, v.display, shown_eq hre.foreign?_eq_none, ?_, ?_⟩
    · exact alike_refl v
    · rw [← hlimit] at hre
      exact hre.runText_display

end MiniLisp
