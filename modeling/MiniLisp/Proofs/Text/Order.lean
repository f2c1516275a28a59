import Mathlib.Tactic
import MiniLisp.Text.Basic

set_option autoImplicit false

/-! # The order of texts

Texts are compared character by character (`Text.le`), and this is a total order. So sorting a list
of texts and leaving out what repeats its neighbour (`Text.sortDistinct`) gives the texts of the
list, each once, in strictly increasing order (`mem_sortDistinct`, `pairwise_sortDistinct`).
-/

namespace MiniLisp.Text

/-- A text stands before another one: where they begin to differ it has the smaller code point, or
it ends there. -/
def Before (s t : Text) : Prop := List.Lex (fun a b => a.toNat < b.toNat) s t

instance : Std.Asymm Before :=
  inferInstanceAs (Std.Asymm (List.Lex fun a b : Char => a.toNat < b.toNat))

/-- There is one way to put texts in strictly increasing order. -/
theorem eq_of_pairwise_before {ss ts : List Text} (hs : ss.Pairwise Before)
    (ht : ts.Pairwise Before) (h : ∀ t, t ∈ ss ↔ t ∈ ts) : ss = ts := by
  have hperm : ss.Perm ts := (List.perm_ext_iff_of_nodup hs.nodup ht.nodup).mpr h
  refine hperm.eq_of_pairwise (fun s t _ _ hst hts => ?_) hs ht
  exact absurd hts (Std.Asymm.asymm s t hst)

/-! ## Comparing texts -/

theorem le_cons_self (a : Char) (s t : Text) : le (a :: s) (a :: t) = le s t := by
  rw [le, if_pos rfl]

theorem le_cons_of_ne {a b : Char} (h : a ≠ b) (s t : Text) :
    le (a :: s) (b :: t) = true ↔ a.toNat < b.toNat := by
  rw [le, if_neg h, decide_eq_true_iff]

theorem ne_of_toNat_lt {a b : Char} (h : a.toNat < b.toNat) : a ≠ b := by
  rintro rfl
  omega

theorem le_trans {s t u : Text} (h : le s t) (h' : le t u) : le s u := by
  induction s generalizing t u with
  | nil => rfl
  | cons a s ih =>
      cases t with
      | nil => contradiction
      | cons b t =>
          cases u with
          | nil => contradiction
          | cons c u =>
              by_cases hab : a = b
              · subst hab
                by_cases hac : a = c
                · subst hac
                  rw [le_cons_self] at h h' ⊢
                  exact ih h h'
                · rw [le_cons_of_ne hac] at h' ⊢
                  exact h'
              · have hlt : a.toNat < b.toNat := (le_cons_of_ne hab s t).mp h
                have hle : b.toNat ≤ c.toNat := by
                  by_cases hbc : b = c
                  · rw [hbc]
                  · exact Nat.le_of_lt ((le_cons_of_ne hbc t u).mp h')
                have hac : a.toNat < c.toNat := by omega
                exact (le_cons_of_ne (ne_of_toNat_lt hac) s u).mpr hac

theorem le_total (s t : Text) : (le s t || le t s) = true := by
  rw [Bool.or_eq_true]
  induction s generalizing t with
  | nil => exact Or.inl rfl
  | cons a s ih =>
      cases t with
      | nil => exact Or.inr rfl
      | cons b t =>
          by_cases hab : a = b
          · subst hab
            rw [le_cons_self, le_cons_self]
            exact ih t
          · have hne : a.toNat ≠ b.toNat := fun h => hab (Char.toNat_inj.mp h)
            rw [le_cons_of_ne hab, le_cons_of_ne (Ne.symm hab)]
            omega

/-- Of two different texts, one that is not after the other is before it. -/
theorem before_of_le_of_ne {s t : Text} (h : le s t) (hne : s ≠ t) : Before s t := by
  induction s generalizing t with
  | nil =>
      cases t with
      | nil => contradiction
      | cons b t => exact .nil
  | cons a s ih =>
      cases t with
      | nil => contradiction
      | cons b t =>
          by_cases hab : a = b
          · subst hab
            rw [le_cons_self] at h
            exact .cons (ih h (fun hst => hne (by rw [hst])))
          · exact .rel ((le_cons_of_ne hab s t).mp h)

theorem le_antisymm {s t : Text} (h : le s t) (h' : le t s) : s = t := by
  induction s generalizing t with
  | nil =>
      cases t with
      | nil => rfl
      | cons b t => contradiction
  | cons a s ih =>
      cases t with
      | nil => contradiction
      | cons b t =>
          by_cases hab : a = b
          · subst hab
            rw [le_cons_self] at h h'
            rw [ih h h']
          · have hlt := (le_cons_of_ne hab s t).mp h
            have hgt := (le_cons_of_ne (Ne.symm hab) t s).mp h'
            omega

/-! ## Leaving out repetitions -/

section

variable {α : Type} [BEq α]

theorem eraseReps_loop_append (a : α) (as before : List α) :
    List.eraseRepsBy.loop (· == ·) a as before =
      before.reverse ++ List.eraseRepsBy.loop (· == ·) a as [] := by
  induction as generalizing a before with
  | nil => simp [List.eraseRepsBy.loop]
  | cons b as ih =>
      rw [List.eraseRepsBy.loop, List.eraseRepsBy.loop]
      cases a == b with
      | true => exact ih a before
      | false => rw [ih b (a :: before), ih b [a], List.reverse_cons, List.append_assoc]; rfl

variable [LawfulBEq α]

theorem eraseReps_cons_self (a : α) (as : List α) :
    (a :: a :: as).eraseReps = (a :: as).eraseReps := by
  show List.eraseRepsBy.loop (· == ·) a (a :: as) [] = _
  rw [List.eraseRepsBy.loop, beq_self_eq_true]
  rfl

theorem eraseReps_cons_of_ne {a b : α} (h : a ≠ b) (as : List α) :
    (a :: b :: as).eraseReps = a :: (b :: as).eraseReps := by
  show List.eraseRepsBy.loop (· == ·) a (b :: as) [] = _
  rw [List.eraseRepsBy.loop, beq_false_of_ne h]
  exact eraseReps_loop_append b as [a]

theorem mem_eraseReps {x : α} {as : List α} : x ∈ as.eraseReps ↔ x ∈ as := by
  induction as with
  | nil => rfl
  | cons a as ih =>
      cases as with
      | nil => rfl
      | cons b as =>
          by_cases hab : a = b
          · subst hab
            rw [eraseReps_cons_self, ih]
            simp
          · rw [eraseReps_cons_of_ne hab, List.mem_cons, ih, List.mem_cons (a := x) (b := a)]

/-- In an ordered list whatever is repeated is next to itself. -/
theorem pairwise_eraseReps {r : α → α → Prop} (hr : ∀ a b, r a b → r b a → a = b) {as : List α}
    (h : as.Pairwise r) : as.eraseReps.Pairwise fun a b => r a b ∧ a ≠ b := by
  induction as with
  | nil => exact .nil
  | cons a as ih =>
      obtain ⟨hfirst, hrest⟩ := List.pairwise_cons.mp h
      cases as with
      | nil => exact List.pairwise_singleton _ a
      | cons b as =>
          by_cases hab : a = b
          · subst hab
            rw [eraseReps_cons_self]
            exact ih hrest
          · rw [eraseReps_cons_of_ne hab]
            refine List.pairwise_cons.mpr ⟨fun x hx => ?_, ih hrest⟩
            rw [mem_eraseReps] at hx
            refine ⟨hfirst x hx, ?_⟩
            -- the first item cannot come again behind the second one
            rintro rfl
            rcases List.mem_cons.mp hx with rfl | hx
            · exact hab rfl
            · exact hab (hr a b (hfirst b (by simp)) ((List.pairwise_cons.mp hrest).1 a hx))

end

/-! ## Sorting -/

theorem mem_sortDistinct {t : Text} {ts : List Text} : t ∈ sortDistinct ts ↔ t ∈ ts := by
  rw [sortDistinct, mem_eraseReps, List.mem_mergeSort]

/-- **Sorted texts are strictly increasing.** -/
theorem pairwise_sortDistinct (ts : List Text) : (sortDistinct ts).Pairwise Before := by
  have htrans : ∀ s t u : Text, le s t → le t u → le s u := fun _ _ _ => le_trans
  have hsorted : (ts.mergeSort le).Pairwise fun s t => le s t :=
    List.pairwise_mergeSort htrans le_total ts
  have hstrict := pairwise_eraseReps (fun _ _ => le_antisymm) hsorted
  exact hstrict.imp (fun h => before_of_le_of_ne h.1 h.2)

end MiniLisp.Text
