import MiniLisp.Expr.Distinct
import MiniLisp.Proofs.Expr.Equality

set_option autoImplicit false

/-! # Looking up equal expressions

Expressions have the hash of their canonical form (`Expr.hash_canonical`), so equal expressions have
one hash. A hash table that has the first positions among some expressions then gives what a search
through these expressions gives, also when another one is put into it (`Expr.Indexes.insert`), and
`Expr.firstEqual` finds what a search through the whole list finds (`firstEqual_eq`).
-/

namespace MiniLisp

/-! ## Hashes -/

theorem Binary64.unsignedZero_unsignedZero (x : Binary64) :
    x.unsignedZero.unsignedZero = x.unsignedZero := by
  rw [unsignedZero, isZero_unsignedZero]
  split
  · next h => rw [unsignedZero, if_pos h]
  · rfl

theorem Foreign.hash_canonical (v : Foreign) : v.canonical.hash = v.hash := by
  cases v with
  | real x =>
      have hreal : (real x).hash = ((x.integer?.map .integer).getD (.real x) : Number).hash := rfl
      rw [canonical]
      cases h : x.integer? with
      | none => rfl
      | some n =>
          rw [hreal, h]
          rfl
  | _ => rfl

namespace Expr

/-- An expression has the hash of its canonical form. -/
theorem hash_canonical (e : Expr) : e.canonical.hash = e.hash := by
  have hitems : ∀ es : List Expr, (∀ e ∈ es, e.canonical.hash = e.hash) →
      hashItems (canonicalItems es) = hashItems es := by
    intro es hes
    induction es with
    | nil => rfl
    | cons e es ih =>
        obtain ⟨he, hes⟩ := List.forall_mem_cons.mp hes
        rw [canonicalItems, hashItems, hashItems, he, ih hes]
  induction e using Expr.induction with
  | num x => rw [canonical, hash, hash, Binary64.hash, Binary64.hash, x.unsignedZero_unsignedZero]
  | list es ih => rw [canonical, hash, hash, hitems es ih]
  | foreign v => rw [canonical, hash, hash, v.hash_canonical]
  | _ => rfl

/-- **Equal expressions have one hash.** -/
theorem hash_eq_of_beq {e f : Expr} (h : (e == f) = true) : e.hash = f.hash := by
  rw [← hash_canonical e, beq_iff_canonical.mp h, hash_canonical]

instance : LawfulHashable Expr where
  hash_eq _ _ h := hash_eq_of_beq h

/-! ## Tables -/

/-- Whether a hash table has the position of the first equal expression among some, and no other
expressions. -/
def Indexes (seen : Std.HashMap Expr ℕ) (before : List Expr) : Prop :=
  ∀ e : Expr, seen[e]? = before.findIdx? (· == e)

theorem indexes_empty : Indexes ∅ [] := fun _ => Std.HashMap.getElem?_empty

variable {seen : Std.HashMap Expr ℕ} {before : List Expr} {e : Expr}

theorem findIdx?_congr {f : Expr} (h : (e == f) = true) (es : List Expr) :
    es.findIdx? (· == e) = es.findIdx? (· == f) := by
  congr
  funext d
  exact BEq.congr_right h

theorem findIdx?_concat (before : List Expr) (e f : Expr) :
    (before ++ [e]).findIdx? (· == f) =
      (before.findIdx? (· == f)).or (if e == f then some before.length else none) := by
  rw [List.findIdx?_append, List.findIdx?_singleton]
  split <;> simp

/-- Where a search for an expression ends that comes up behind others. -/
theorem findIdx_append_cons (before : List Expr) (e : Expr) (after : List Expr) :
    (before ++ e :: after).findIdx (· == e) = (before.findIdx? (· == e)).getD before.length := by
  rw [List.findIdx_eq_getD_findIdx?, List.findIdx?_append, List.findIdx?_cons, if_pos BEq.rfl]
  cases before.findIdx? (· == e) <;> simp

/-- An expression that is found changes no search. -/
theorem Indexes.skip (h : Indexes seen before) {j : ℕ} (he : seen[e]? = some j) :
    Indexes seen (before ++ [e]) := by
  intro f
  rw [findIdx?_concat, h f]
  by_cases hef : e == f
  · rw [← findIdx?_congr hef, ← h e, he]
    rfl
  · rw [if_neg hef, Option.or_none]

theorem Indexes.insert (h : Indexes seen before) (he : seen[e]? = none) :
    Indexes (seen.insert e before.length) (before ++ [e]) := by
  intro f
  rw [findIdx?_concat, Std.HashMap.getElem?_insert, h f]
  by_cases hef : e == f
  · rw [if_pos hef, if_pos hef, ← findIdx?_congr hef, ← h e, he]
    rfl
  · rw [if_neg hef, if_neg hef, Option.or_none]

/-- **A search through a table gives what a search through the list gives.** -/
theorem firstEqualFrom_eq (h : Indexes seen before) (es : List Expr) :
    firstEqualFrom seen before.length es = es.map fun e => (before ++ es).findIdx (· == e) := by
  induction es generalizing before seen with
  | nil => rfl
  | cons e es ih =>
      have hnext : before ++ e :: es = (before ++ [e]) ++ es := List.append_cons before e es
      have hlength : before.length + 1 = (before ++ [e]).length := by simp
      rw [firstEqualFrom, List.map_cons, findIdx_append_cons, ← h e, hnext, hlength]
      cases he : seen[e]? with
      | some j => simp only [ih (h.skip he), Option.getD_some]
      | none => simp only [ih (h.insert he), Option.getD_none]

theorem firstUnhashable?_eq_none {es : List Expr} (h : ∀ e ∈ es, e.unhashable? = none) :
    firstUnhashable? es = none := by
  induction es with
  | nil => rfl
  | cons e es ih =>
      obtain ⟨he, hes⟩ := List.forall_mem_cons.mp h
      rw [firstUnhashable?, he, ih hes]
      rfl

/-- Expressions of the language can be looked up. -/
theorem unhashable?_eq_none {e : Expr} (h : e.foreign? = none) : e.unhashable? = none := by
  induction e using Expr.induction with
  | list es ih =>
      rw [unhashable?]
      exact firstUnhashable?_eq_none fun e he => ih e he (firstForeign?_eq_none_iff.mp h e he)
  | foreign v => cases h
  | _ => rfl

theorem firstEqual_eq {es : List Expr} (h : ∀ e ∈ es, e.foreign? = none) :
    firstEqual es = .ok (es.map fun e => es.findIdx (· == e)) := by
  have hhashable := firstUnhashable?_eq_none fun e he => unhashable?_eq_none (h e he)
  have hlinear := firstEqualFrom_eq indexes_empty es
  rw [List.nil_append, List.length_nil] at hlinear
  rw [firstEqual, hhashable, hlinear]

/-- **Equality is an equivalence that agrees with the hashes.** Expressions are equal if they match
at every place, and then they have one hash, so that looking expressions up gives what searching
gives. -/
theorem beq_laws :
    Equivalence (fun e f : Expr => (e == f) = true) ∧
      (∀ e f : Expr, (e == f) = true ↔ ∀ path, Option.Rel Matches (e.at? path) (f.at? path)) ∧
      (∀ es fs, (list es == list fs) = true ↔ es.length = fs.length ∧
        ∀ i (hi : i < es.length) (hj : i < fs.length), (es[i] == fs[i]) = true) ∧
      (∀ x y, (num x == num y) = true ↔ x = y ∨ x.isZero = true ∧ y.isZero = true) ∧
      (∀ x y, (num x == num y) = true ↔ x = .nan ∧ y = .nan ∨ Binary64.Equals x y) ∧
      (∀ e f : Expr, (e == f) = true → e.hash = f.hash) ∧
      ∀ es : List Expr, (∀ e ∈ es, e.foreign? = none) →
        firstEqual es = .ok (es.map fun e => es.findIdx (· == e)) := by
  refine ⟨⟨fun _ => BEq.rfl, BEq.symm, BEq.trans⟩, fun _ _ => beq_iff_at?, fun _ _ => list_beq_iff,
    fun _ _ => num_beq_iff, fun _ _ => Binary64.alike_iff_equals, fun _ _ => hash_eq_of_beq,
    fun _ => firstEqual_eq⟩

/-- Lists with a NaN and with zeros of both signs are found again. -/
theorem beq_laws_zeros :
    let es := [list [num .nan, num (.zero true)], bool true, list [num .nan, num (.zero false)]]
    (∀ e ∈ es, e.foreign? = none) ∧ firstEqual es = .ok [0, 1, 0] := by
  intro es
  have hes : ∀ e ∈ es, e.foreign? = none := by simp [es, foreign?, firstForeign?]
  obtain ⟨-, -, -, -, -, -, hfirst⟩ := beq_laws
  exact ⟨hes, hfirst es hes⟩

end Expr

end MiniLisp
