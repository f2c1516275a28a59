import MiniLisp.Proofs.Evaluation.Step
import MiniLisp.Proofs.Number.Sum

set_option autoImplicit false

/-! # The sum of arguments

The form `+` takes its arguments in order. A symbol stands for what it is bound to, anything else
for itself (`Scopes.resolve?`); what a symbol stands for is not resolved again, nor is anything
evaluated. Each argument then is a number or offends (`num_or_offends`). The first that offends
decides the fault, whatever follows it, and if none does, the sum is the total of the numbers from
`+0` on (`Added`).
-/

namespace MiniLisp

open Eval Binary64

/-- What an argument of a sum stands for, if it is bound to anything. -/
def Scopes.resolve? (s : Scopes) : Expr → Option Expr
  | .sym n => s.get? n
  | e => some e

/-- The number that a value is, or the refusal of any other value. -/
def Eval.number : Expr → Eval Binary64
  | .num x => pure x
  | v => refuse .notNumber v

/-- The fault of an argument that a sum cannot add. -/
inductive Offends (s : Scopes) : Expr → Fault → Prop
  | unbound {n : Text} (h : s.get? n = none) : Offends s (.sym n) (.ofCause (.unbound n))
  /-- The message shows what the argument stands for. -/
  | notNumber {e v : Expr} (h : s.resolve? e = some v) (hnum : ∀ x, v ≠ .num x)
      (hv : v.foreign? = none) : Offends s e (.ofCause (.notNumber v.display))
  | foreign {e v : Expr} {w : Foreign} (h : s.resolve? e = some v) (hv : v.foreign? = some w) :
      Offends s e (.notExpression w.kind)

/-- What comes of adding arguments. -/
inductive Added (s : Scopes) : List Expr → Except Fault Expr → Prop
  | total {es : List Expr} {xs : List Binary64} {z : Binary64}
      (hxs : List.Forall₂ (fun e x => s.resolve? e = some (.num x)) es xs)
      (hz : IsTotal (zero false) xs z) : Added s es (.ok (.num z))
  /-- What follows the first argument that offends does not matter. -/
  | fault {before after : List Expr} {e : Expr} {f : Fault}
      (hbefore : ∀ d ∈ before, ∃ x, s.resolve? d = some (.num x)) (hf : Offends s e f) :
      Added s (before ++ e :: after) (.error f)

/-! ## One argument -/

theorem num_or_offends (s : Scopes) (e : Expr) :
    (∃ x, s.resolve? e = some (.num x)) ∨ ∃ f, Offends s e f := by
  cases h : s.resolve? e with
  | none =>
      cases e with
      | sym n => exact Or.inr ⟨_, .unbound h⟩
      | _ => contradiction
  | some v =>
      by_cases hnum : ∃ x, v = .num x
      · obtain ⟨x, rfl⟩ := hnum
        exact Or.inl ⟨x, rfl⟩
      · rw [not_exists] at hnum
        right
        cases hv : v.foreign? with
        | none => exact ⟨_, .notNumber h hnum hv⟩
        | some w => exact ⟨_, .foreign h hv⟩

section

variable {env : Environment} {e v : Expr} {f : Fault} {x : Binary64}

/-- An argument adds what it stands for, if this is a number. -/
theorem summand_of_resolve (h : env.scopes.resolve? e = some v) :
    summand e env = number v env := by
  cases e with
  | sym n =>
      rw [Scopes.resolve?] at h
      have hlookup : lookup n env = ⟨.ok v, env, []⟩ := by rw [lookup_apply, h]
      rw [summand, bind_of_ok _ (by rw [hlookup]), hlookup]
      cases v <;> rfl
  | _ =>
      cases h
      rfl

theorem summand_of_num (h : env.scopes.resolve? e = some (.num x)) :
    summand e env = ⟨.ok x, env, []⟩ := by
  rw [summand_of_resolve h]
  rfl

theorem number_of_ne (hnum : ∀ x, v ≠ .num x) : number v = refuse .notNumber v := by
  cases v with
  | num x => exact absurd rfl (hnum x)
  | _ => rfl

theorem summand_of_offends (h : Offends env.scopes e f) :
    summand e env = ⟨.error f, env, []⟩ := by
  cases h with
  | unbound h =>
      rw [summand, bind_of_error _ (by rw [lookup_apply, h]), lookup_apply]
  | notNumber h hnum hv =>
      rw [summand_of_resolve h, number_of_ne hnum, refuse, Expr.shown, hv]
      rfl
  | @foreign e v w h hv =>
      have hnum : ∀ x, v ≠ .num x := by
        rintro x rfl
        cases hv
      rw [summand_of_resolve h, number_of_ne hnum, refuse, Expr.shown, hv]
      rfl

/-! ## All arguments -/

variable {total : Binary64} {es before after : List Expr} {xs : List Binary64}

theorem sum_of_nums
    (h : List.Forall₂ (fun e x => env.scopes.resolve? e = some (.num x)) es xs) :
    sum total es env = ⟨.ok (xs.foldl (· + ·) total), env, []⟩ := by
  induction h generalizing total with
  | nil => rfl
  | cons hx _ ih =>
      have hsummand := summand_of_num hx
      rw [sum, bind_of_ok _ (by rw [hsummand]), hsummand, ih]
      rfl

theorem sum_of_offends (hbefore : ∀ d ∈ before, ∃ x, env.scopes.resolve? d = some (.num x))
    (h : Offends env.scopes e f) : sum total (before ++ e :: after) env = ⟨.error f, env, []⟩ := by
  induction before generalizing total with
  | nil =>
      have hsummand := summand_of_offends h
      rw [List.nil_append, sum, bind_of_error _ (by rw [hsummand]), hsummand]
  | cons d before ih =>
      obtain ⟨x, hx⟩ := hbefore d List.mem_cons_self
      have hsummand := summand_of_num hx
      rw [List.cons_append, sum, bind_of_ok _ (by rw [hsummand]), hsummand,
        ih fun d hd => hbefore d (List.mem_cons_of_mem _ hd)]
      rfl

theorem forall_num_iff {s : Scopes} :
    (∀ e ∈ es, ∃ x, s.resolve? e = some (.num x)) ↔
      ∃ xs, List.Forall₂ (fun e x => s.resolve? e = some (.num x)) es xs := by
  constructor
  · intro h
    induction es with
    | nil => exact ⟨[], .nil⟩
    | cons e es ih =>
        obtain ⟨⟨x, hx⟩, hes⟩ := List.forall_mem_cons.mp h
        obtain ⟨xs, hxs⟩ := ih hes
        exact ⟨x :: xs, .cons hx hxs⟩
  · rintro ⟨xs, h⟩
    induction h with
    | nil => exact List.forall_mem_nil _
    | cons hx _ ih => exact List.forall_mem_cons.mpr ⟨⟨_, hx⟩, ih⟩

theorem exists_added (s : Scopes) (es : List Expr) : ∃ r, Added s es r := by
  induction es with
  | nil => exact ⟨_, .total .nil (.nil _)⟩
  | cons e es ih =>
      rcases num_or_offends s e with he | ⟨f, hf⟩
      · obtain ⟨r, hr⟩ := ih
        cases hr with
        | total hxs hz =>
            obtain ⟨x, hx⟩ := he
            exact ⟨_, .total (.cons hx hxs) (isTotal_iff.mpr rfl)⟩
        | @fault before after d f hbefore hf =>
            have hall : ∀ c ∈ e :: before, ∃ x, s.resolve? c = some (.num x) :=
              List.forall_mem_cons.mpr ⟨he, hbefore⟩
            exact ⟨_, @Added.fault s (e :: before) after d f hall hf⟩
      · exact ⟨_, @Added.fault s [] es e f (List.forall_mem_nil _) hf⟩

/-- What comes of adding is what the sum gives, and nothing else happens. -/
theorem applyForm_of_added {r : Except Fault Expr} (h : Added env.scopes es r) :
    applyForm .add es env = ⟨r, env, []⟩ := by
  cases h with
  | @total es xs z hxs hz =>
      have hsum : sum (zero false) es env = ⟨.ok z, env, []⟩ := by
        rw [sum_of_nums hxs, isTotal_iff.mp hz]
      rw [applyForm, bind_of_ok _ (by rw [hsum]), hsum]
      rfl
  | fault hbefore hf =>
      rw [applyForm, bind_of_error _ (by rw [sum_of_offends hbefore hf]), sum_of_offends hbefore hf]

end

/-- **`+` gives the total of its arguments, or the fault of the first that is no number**, and
changes nothing. The total is never `-0`. -/
theorem applyForm_add (es : List Expr) (env : Environment) :
    (applyForm .add es env).env = env ∧ (applyForm .add es env).events = [] ∧
      ((∃ v, (applyForm .add es env).result = .ok v) ↔
        ∀ e ∈ es, ∃ x, env.scopes.resolve? e = some (.num x)) ∧
      (∀ r, (applyForm .add es env).result = r ↔ Added env.scopes es r) ∧
      (applyForm .add es env).result ≠ .ok (.num (zero true)) := by
  obtain ⟨r, hr⟩ := exists_added env.scopes es
  have hrun := applyForm_of_added hr
  have hresult : ∀ r', (applyForm .add es env).result = r' ↔ Added env.scopes es r' := by
    intro r'
    constructor
    · rintro rfl
      rwa [hrun]
    · intro h
      rw [applyForm_of_added h]
  refine ⟨by rw [hrun], by rw [hrun], ?_, hresult, ?_⟩
  · constructor
    · rintro ⟨v, hv⟩
      cases (hresult _).mp hv with
      | total hxs hz => exact forall_num_iff.mpr ⟨_, hxs⟩
    · intro h
      obtain ⟨xs, hxs⟩ := forall_num_iff.mp h
      exact ⟨_, (hresult _).mpr (.total hxs (isTotal_iff.mpr rfl))⟩
  · intro h
    generalize hz : zero true = z at h
    cases (hresult _).mp h with
    | total hxs htotal => exact htotal.ne_zero nofun hz.symm

end MiniLisp
