import MiniLisp.Proofs.Expr.Structure
import MiniLisp.Proofs.Number.Equality

set_option autoImplicit false

/-! # Equality of expressions

Equal expressions have one canonical form, in which zeros have no sign (`alike_iff`), and hence
equality is an equivalence. Values of an embedding program have such a form too, in which a number
is an integer wherever it is equal to one.

Equality can be told place by place (`beq_iff_at?`): two expressions are equal if at every place in
them, at any depth, things of the same kind stand that match, lists by their lengths alone.
-/

namespace MiniLisp

/-! ## Foreign values -/

namespace Foreign

/-- A number as a value. -/
def Number.toForeign : Number → Foreign
  | .integer n => .integer n
  | .real x => .real x

mutual

/-- The form that a value has in common with all values equal to it. -/
def canonical : Foreign → Foreign
  | .truth b => .integer (if b then 1 else 0)
  | .real x =>
      match x.integer? with
      | some n => .integer n
      | none => .real x
  | .sequence vs => .sequence (canonicalItems vs)
  | .mapping ks vs => .mapping ks (canonicalItems vs)
  | v => v

/-- The canonical forms of values, in order. -/
def canonicalItems : List Foreign → List Foreign
  | [] => []
  | v :: vs => canonical v :: canonicalItems vs

end

/-- Induction over values, where a sequence and a mapping are reached through their items. -/
@[elab_as_elim]
theorem induction {motive : Foreign → Prop} (nothing : motive .nothing)
    (number : ∀ v n, number? v = some n → motive v) (text : ∀ t, motive (.text t))
    (sequence : ∀ vs, (∀ v ∈ vs, motive v) → motive (.sequence vs))
    (mapping : ∀ ks vs, (∀ v ∈ vs, motive v) → motive (.mapping ks vs)) : ∀ v, motive v
  | .nothing => nothing
  | .truth b => number (.truth b) _ rfl
  | .integer n => number (.integer n) _ rfl
  | .real x => number (.real x) _ rfl
  | .text t => text t
  | .sequence vs =>
      sequence vs (fun v _ => induction nothing number text sequence mapping v)
  | .mapping ks vs =>
      mapping ks vs (fun v _ => induction nothing number text sequence mapping v)

/-- A number is told by its canonical form. -/
theorem number?_eq_some_iff {v : Foreign} {n : Number} :
    v.number? = some n ↔ v.canonical = n.toForeign := by
  cases v with
  | real x =>
      rw [number?, canonical]
      cases x.integer? <;> cases n <;> simp [Number.toForeign]
  | _ => cases n <;> simp [number?, canonical, Number.toForeign]

theorem alike_of_number {v : Foreign} {n : Number} (h : v.number? = some n) (w : Foreign) :
    v.alike w = true ↔ w.number? = some n := by
  have halike : v.alike w = (v.number?.isSome && v.number? == w.number?) := by
    cases v with
    | truth b => cases w <;> rfl
    | integer k => cases w <;> rfl
    | real x => cases w <;> rfl
    | _ => contradiction
  rw [halike, h, Option.isSome_some, Bool.true_and, beq_iff_eq, eq_comm]

/-- What is no number is equal to no number. -/
theorem alike_number_iff {v w : Foreign} (hv : v.number? = none) (hw : w.number?.isSome = true) :
    v.alike w = true ↔ v.canonical = w.canonical := by
  obtain ⟨n, hn⟩ := Option.isSome_iff_exists.mp hw
  have halike : v.alike w = false := by
    cases v with
    | truth | integer | real => contradiction
    | _ =>
        cases w with
        | truth | integer | real => rfl
        | _ => contradiction
  refine iff_of_false (by simp [halike]) ?_
  intro h
  rw [number?_eq_some_iff, ← h, ← number?_eq_some_iff, hv] at hn
  contradiction

theorem allAlike_iff_canonical {vs : List Foreign}
    (ih : ∀ v ∈ vs, ∀ w, v.alike w = true ↔ v.canonical = w.canonical) (ws : List Foreign) :
    allAlike vs ws = true ↔ canonicalItems vs = canonicalItems ws := by
  induction vs generalizing ws with
  | nil => cases ws <;> simp [allAlike, canonicalItems]
  | cons v vs ihvs =>
      obtain ⟨hv, hvs⟩ := List.forall_mem_cons.mp ih
      cases ws with
      | nil => simp [allAlike, canonicalItems]
      | cons w ws => simp [allAlike, canonicalItems, hv w, ihvs hvs ws]

/-- Values are equal if they have one canonical form. -/
theorem alike_iff_canonical {v w : Foreign} :
    v.alike w = true ↔ v.canonical = w.canonical := by
  induction v using Foreign.induction generalizing w with
  | number v n h => rw [alike_of_number h, number?_eq_some_iff, number?_eq_some_iff.mp h, eq_comm]
  | nothing =>
      cases w with
      | truth | integer | real => exact alike_number_iff rfl rfl
      | _ => simp [alike, number?, canonical]
  | text t =>
      cases w with
      | truth | integer | real => exact alike_number_iff rfl rfl
      | _ => simp [alike, number?, canonical]
  | sequence vs ih =>
      cases w with
      | truth | integer | real => exact alike_number_iff rfl rfl
      | sequence ws => simp [alike, canonical, allAlike_iff_canonical (fun v hv w => ih v hv) ws]
      | _ => simp [alike, number?, canonical]
  | mapping ks vs ih =>
      cases w with
      | truth | integer | real => exact alike_number_iff rfl rfl
      | mapping ls ws =>
          simp [alike, canonical, allAlike_iff_canonical (fun v hv w => ih v hv) ws]
      | _ => simp [alike, number?, canonical]

end Foreign

/-! ## Expressions -/

namespace Expr

mutual

/-- The form that an expression has in common with all expressions equal to it. -/
def canonical : Expr → Expr
  | .num x => .num x.unsignedZero
  | .list es => .list (canonicalItems es)
  | .foreign v => .foreign v.canonical
  | e => e

/-- The canonical forms of expressions, in order. -/
def canonicalItems : List Expr → List Expr
  | [] => []
  | e :: es => canonical e :: canonicalItems es

end

theorem allAlike_iff {es fs : List Expr} :
    allAlike es fs = true ↔ List.Forall₂ (fun e f => (e == f) = true) es fs := by
  induction es generalizing fs with
  | nil => cases fs <;> simp [allAlike]
  | cons e es ih =>
      cases fs with
      | nil => simp [allAlike]
      | cons f fs =>
          rw [allAlike, Bool.and_eq_true, ih, List.forall₂_cons]
          rfl

theorem allAlike_iff_canonical {es : List Expr}
    (ih : ∀ e ∈ es, ∀ f, e.alike f = true ↔ e.canonical = f.canonical) (fs : List Expr) :
    allAlike es fs = true ↔ canonicalItems es = canonicalItems fs := by
  induction es generalizing fs with
  | nil => cases fs <;> simp [allAlike, canonicalItems]
  | cons e es ihes =>
      obtain ⟨he, hes⟩ := List.forall_mem_cons.mp ih
      cases fs with
      | nil => simp [allAlike, canonicalItems]
      | cons f fs => simp [allAlike, canonicalItems, he f, ihes hes fs]

/-- **Expressions are equal if they have one canonical form.** -/
theorem alike_iff_canonical {e f : Expr} : e.alike f = true ↔ e.canonical = f.canonical := by
  induction e using Expr.induction generalizing f with
  | num x => cases f <;> simp [alike, canonical, Binary64.alike]
  | foreign v => cases f <;> simp [alike, canonical, Foreign.alike_iff_canonical]
  | list es ih =>
      cases f with
      | list fs => simp [alike, canonical, allAlike_iff_canonical (fun e he f => ih e he) fs]
      | _ => simp [alike, canonical]
  | _ => cases f <;> simp [alike, canonical]

theorem beq_iff_canonical {e f : Expr} : (e == f) = true ↔ e.canonical = f.canonical :=
  alike_iff_canonical

instance : EquivBEq Expr where
  rfl := beq_iff_canonical.mpr rfl
  symm h := beq_iff_canonical.mpr (beq_iff_canonical.mp h).symm
  trans h₁ h₂ := beq_iff_canonical.mpr ((beq_iff_canonical.mp h₁).trans (beq_iff_canonical.mp h₂))

theorem alike_refl (e : Expr) : e.alike e = true := alike_iff_canonical.mpr rfl

theorem allAlike_refl (es : List Expr) : allAlike es es = true := alike_refl (list es)

/-! ## Places -/

/-- The expression at a place in another one, if there is such a place. The place is told by the
positions of the items that lead to it. -/
def at? : List ℕ → Expr → Option Expr
  | [], e => some e
  | i :: path, .list es => es[i]?.bind (at? path)
  | _ :: _, _ => none

/-- Whether expressions match apart from the items they may have. -/
inductive Matches : Expr → Expr → Prop
  | bool (b : Bool) : Matches (.bool b) (.bool b)
  | num {x y : Binary64} (h : x = y ∨ x.isZero = true ∧ y.isZero = true) :
      Matches (.num x) (.num y)
  | str (s : Text) : Matches (.str s) (.str s)
  | sym (n : Text) : Matches (.sym n) (.sym n)
  | list {es fs : List Expr} (h : es.length = fs.length) : Matches (.list es) (.list fs)
  | foreign {v w : Foreign} (h : v.alike w = true) : Matches (.foreign v) (.foreign w)

theorem num_beq_iff {x y : Binary64} :
    (num x == num y) = true ↔ x = y ∨ x.isZero = true ∧ y.isZero = true :=
  Binary64.alike_iff

/-- Lists are equal if they have equal length and equal items. -/
theorem list_beq_iff {es fs : List Expr} :
    (list es == list fs) = true ↔ es.length = fs.length ∧
      ∀ i (hi : i < es.length) (hj : i < fs.length), (es[i] == fs[i]) = true := by
  show allAlike es fs = true ↔ _
  rw [allAlike_iff, List.forall₂_iff_get]
  rfl

theorem matches_of_beq {e f : Expr} (h : (e == f) = true) : Matches e f := by
  cases e with
  | bool a =>
      cases f with
      | bool b =>
          obtain rfl : a = b := eq_of_beq h
          exact .bool a
      | _ => cases h
  | num x =>
      cases f with
      | num y => exact .num (num_beq_iff.mp h)
      | _ => cases h
  | str s =>
      cases f with
      | str t =>
          obtain rfl : s = t := eq_of_beq h
          exact .str s
      | _ => cases h
  | sym m =>
      cases f with
      | sym n =>
          obtain rfl : m = n := eq_of_beq h
          exact .sym m
      | _ => cases h
  | list es =>
      cases f with
      | list fs => exact .list (list_beq_iff.mp h).1
      | _ => cases h
  | foreign v =>
      cases f with
      | foreign w => exact .foreign h
      | _ => cases h

theorem Matches.beq {e f : Expr} (h : Matches e f) (hlist : ∀ es, e ≠ .list es) :
    (e == f) = true := by
  cases h with
  | num h => exact num_beq_iff.mpr h
  | foreign h => exact h
  | @list es fs _ => exact absurd rfl (hlist es)
  | _ => exact BEq.rfl

theorem at?_list {es : List Expr} {i : ℕ} (hi : i < es.length) (path : List ℕ) :
    (list es).at? (i :: path) = es[i].at? path := by
  rw [at?, List.getElem?_eq_getElem hi, Option.bind_some]

/-- **Expressions are equal if they match at every place.** -/
theorem beq_iff_at? {e f : Expr} :
    (e == f) = true ↔ ∀ path, Option.Rel Matches (e.at? path) (f.at? path) := by
  constructor
  · intro h path
    induction path generalizing e f with
    | nil => exact .some (matches_of_beq h)
    | cons i path ih =>
        cases matches_of_beq h with
        | @list es fs hlength =>
            by_cases hi : i < es.length
            · rw [at?_list hi, at?_list (hlength ▸ hi)]
              exact ih ((list_beq_iff.mp h).2 i hi (hlength ▸ hi))
            · rw [at?, at?, List.getElem?_eq_none (by omega), List.getElem?_eq_none (by omega)]
              exact .none
        | _ => exact .none
  · intro h
    induction e using Expr.induction generalizing f with
    | list es ih =>
        cases h [] with
        | some hmatch =>
            cases hmatch with
            | list hlength =>
                refine list_beq_iff.mpr ⟨hlength, fun i hi hj => ih _ (List.getElem_mem hi) ?_⟩
                intro path
                rw [← at?_list hi, ← at?_list hj]
                exact h (i :: path)
    | _ =>
        cases h [] with
        | some hmatch => exact hmatch.beq nofun

end Expr

end MiniLisp
