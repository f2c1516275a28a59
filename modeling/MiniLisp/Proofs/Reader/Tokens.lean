import Mathlib.Tactic
import MiniLisp.Token

set_option autoImplicit false

/-! # Whole tokens and tokens cut off

A token is *whole* if, read on its own, it is one token and no string is left open: a parenthesis,
a word or a string with its end. A token is *cut off* if it is a string without its end.

Every token of a text is whole, except that the last one may be cut off (`endsIn_tokenize`). A whole
token is found again before everything that may follow it in a printed text
(`tokenize_whole_append`), while a token that is cut off takes what follows in, up to the next
double quote (`CutOff.tokenize_append`).
-/

namespace MiniLisp

namespace Scan

/-- The characters of the unfinished token. -/
def pending : Scan → Text
  | .gap => []
  | .word r => r.reverse
  | .quoted r => r.reverse

/-- Whether the unfinished token, read on its own, is unfinished in the same way. -/
def Sound (s : Scan) : Prop := run .gap s.pending = ([], s)

/-- Whether an unfinished string starts with a double quote. -/
def Opened : Scan → Prop
  | .quoted r => r.getLast? = some '"'
  | _ => True

end Scan

/-- Whether a token, read on its own, is one token and no open string. -/
def Whole (t : Token) : Prop :=
  Scan.run .gap t = ([t], .gap) ∨ Scan.run .gap t = ([], .word t.reverse)

/-- Whether a token is a string without its end. -/
def CutOff (t : Token) : Prop := Scan.run .gap t = ([], .quoted t.reverse) ∧ t.head? = some '"'

/-- The token that a text breaks off inside a string. -/
def cutOff? (t : Text) : Option Token :=
  match (Scan.run .gap t).2 with
  | .quoted r => some r.reverse
  | _ => none

/-- Tokens that are whole, but for the one at the end that is cut off, if there is one. -/
def EndsIn (cut : Option Token) (ts : List Token) : Prop :=
  ∃ ws : List Token, ts = ws ++ cut.toList ∧ (∀ w ∈ ws, Whole w) ∧ ∀ c ∈ cut, CutOff c

/-- Whether a character ends a word. -/
def delimits (c : Char) : Bool := isParen c || Text.isBlank c

namespace Scan

/-! ## The tokens of a text -/

theorem sound_enter (c : Char) : (∀ t ∈ (enter c).1, Whole t) ∧ (enter c).2.Sound := by
  unfold enter
  split
  · next hparen => exact ⟨by simp [Whole, run, step, enter, hparen], rfl⟩
  split
  · exact ⟨by simp, rfl⟩
  · next hparen hblank =>
      split
      · next hquote =>
          subst hquote
          exact ⟨by simp, rfl⟩
      · next hquote => exact ⟨by simp, by simp [Sound, pending, run, step, enter, *]⟩

theorem sound_step {s : Scan} (hs : s.Sound) (c : Char) :
    (∀ t ∈ (step s c).1, Whole t) ∧ (step s c).2.Sound := by
  cases s with
  | gap => exact sound_enter c
  | word r =>
      have hr : run .gap r.reverse = ([], .word r) := hs
      simp only [step]
      split
      -- the word ends, and so do the characters that were read on its own
      · obtain ⟨htokens, hsound⟩ := sound_enter c
        refine ⟨?_, hsound⟩
        intro t ht
        rcases List.mem_cons.mp ht with rfl | ht
        · right
          rw [hr, List.reverse_reverse]
        · exact htokens t ht
      · next hc =>
          refine ⟨by simp, ?_⟩
          rw [Sound, pending, List.reverse_cons, run_append, hr]
          simp [run, step, hc]
  | quoted r =>
      have hr : run .gap r.reverse = ([], .quoted r) := hs
      simp only [step]
      split
      · next hend =>
          refine ⟨?_, rfl⟩
          intro t ht
          obtain rfl := List.mem_singleton.mp ht
          left
          rw [List.reverse_cons, run_append, hr]
          simp only [run, step, if_pos hend]
          simp
      · next hend =>
          refine ⟨by simp, ?_⟩
          rw [Sound, pending, List.reverse_cons, run_append, hr]
          simp only [run, step, if_neg hend]
          simp

theorem sound_run {s : Scan} (hs : s.Sound) (t : Text) :
    (∀ u ∈ (run s t).1, Whole u) ∧ (run s t).2.Sound := by
  induction t generalizing s with
  | nil => exact ⟨by simp [run], hs⟩
  | cons c t ih =>
      obtain ⟨hfirst, hs₁⟩ := sound_step hs c
      obtain ⟨hrest, hs₂⟩ := ih hs₁
      refine ⟨?_, hs₂⟩
      intro u hu
      rcases List.mem_append.mp hu with hu | hu
      · exact hfirst u hu
      · exact hrest u hu

theorem opened_step {s : Scan} (hs : s.Opened) (c : Char) : (step s c).2.Opened := by
  have henter : (enter c).2.Opened := by
    unfold enter
    split
    · trivial
    split
    · trivial
    split
    · next hquote => simp [Opened, hquote]
    · trivial
  cases s with
  | gap => exact henter
  | word r =>
      simp only [step]
      split
      · exact henter
      · trivial
  | quoted r =>
      simp only [step]
      split
      · trivial
      · rw [Opened] at hs ⊢
        rw [List.getLast?_cons, hs]
        rfl

theorem opened_run {s : Scan} (hs : s.Opened) (t : Text) : (run s t).2.Opened := by
  induction t generalizing s with
  | nil => exact hs
  | cons c t ih => exact ih (opened_step hs c)

end Scan

/-- **Every token of a text is whole, but the one that its end cuts off.** -/
theorem endsIn_tokenize (t : Text) : EndsIn (cutOff? t) (tokenize t) := by
  obtain ⟨hwhole, hsound⟩ := Scan.sound_run (s := .gap) rfl t
  have hopened := Scan.opened_run (s := .gap) trivial t
  have htokens : tokenize t = (Scan.run .gap t).1 ++ (Scan.run .gap t).2.finish := rfl
  rw [EndsIn, htokens, cutOff?]
  cases hend : (Scan.run .gap t).2 with
  | gap => exact ⟨_, by simp [Scan.finish], hwhole, by simp⟩
  | word r =>
      rw [hend] at hsound
      refine ⟨(Scan.run .gap t).1 ++ [r.reverse], by simp [Scan.finish], ?_, by simp⟩
      intro w hw
      rcases List.mem_append.mp hw with hw | hw
      · exact hwhole w hw
      · obtain rfl := List.mem_singleton.mp hw
        right
        rw [List.reverse_reverse]
        exact hsound
  | quoted r =>
      rw [hend] at hsound hopened
      refine ⟨_, by simp [Scan.finish], hwhole, ?_⟩
      rintro c ⟨⟩
      refine ⟨?_, ?_⟩
      · rw [List.reverse_reverse]
        exact hsound
      · rw [List.head?_reverse]
        exact hopened

/-! ## Tokens in front of a text -/

theorem isParen_iff {c : Char} : isParen c ↔ c = '(' ∨ c = ')' := by
  simp [isParen]

theorem tokenize_paren {c : Char} (hc : isParen c) (t : Text) :
    tokenize (c :: t) = [c] :: tokenize t := by
  simp [tokenize, Scan.run, Scan.step, Scan.enter, hc]

theorem not_isParen_of_isBlank {c : Char} (hc : Text.isBlank c) : ¬ isParen c := by
  rw [isParen_iff]
  rintro (rfl | rfl) <;> contradiction

/-- A blank has no token and leaves nothing unfinished. -/
theorem Scan.enter_blank {c : Char} (hc : Text.isBlank c) : Scan.enter c = ([], .gap) := by
  rw [Scan.enter, if_neg (not_isParen_of_isBlank hc), if_pos hc]

theorem tokenize_blank {c : Char} (hc : Text.isBlank c) (t : Text) :
    tokenize (c :: t) = tokenize t := by
  simp [tokenize, Scan.run, Scan.step, Scan.enter_blank hc]

/-- A whole token is found again where a text follows that its last character cannot run into. -/
theorem tokenize_whole_append {t u : Text} (ht : Whole t) (hu : ∀ c ∈ u.head?, delimits c) :
    tokenize (t ++ u) = t :: tokenize u := by
  rcases ht with ht | ht
  · simp [tokenize, Scan.run_append, ht]
  -- only a word can run into what follows it
  · cases u with
    | nil => simp [tokenize, ht, Scan.run, Scan.finish]
    | cons c u =>
        have hc : delimits c := hu c rfl
        have hstep : ∀ r,
            Scan.step (.word r) c = (r.reverse :: (Scan.enter c).1, (Scan.enter c).2) := by
          intro r
          simp only [Scan.step]
          rw [if_pos (show (isParen c || Text.isBlank c) = true from hc)]
        have hgap : Scan.step .gap c = Scan.enter c := rfl
        simp [tokenize, Scan.run_append, ht, Scan.run, hstep, hgap]

theorem whole_word {t : Text} (hne : t ≠ []) (hchars : ∀ c ∈ t, delimits c = false)
    (hhead : t.head? ≠ some '"') : Whole t := by
  have hword : ∀ u r : Text, (∀ c ∈ u, delimits c = false) →
      Scan.run (.word r) u = ([], .word (u.reverse ++ r)) := by
    intro u
    induction u with
    | nil => intro r hu; rfl
    | cons c u ih =>
        intro r hu
        have hc : ¬ (isParen c || Text.isBlank c) = true := by
          rw [Bool.not_eq_true]
          exact hu c (by simp)
        rw [Scan.run, Scan.step, if_neg hc]
        simp [ih (c :: r) (fun d hd => hu d (by simp [hd]))]
  right
  cases t with
  | nil => contradiction
  | cons c t =>
      have hc := hchars c (by simp)
      simp only [delimits, Bool.or_eq_false_iff] at hc
      have hquote : c ≠ '"' := by
        rintro rfl
        exact hhead rfl
      have henter : Scan.enter c = ([], .word [c]) := by simp [Scan.enter, hc, hquote]
      simp [Scan.run, Scan.step, henter, hword t [c] (fun d hd => hchars d (by simp [hd]))]

/-- A string goes on over double quotes that a backslash stands directly before. -/
theorem run_escaped {u r : Text}
    (hu : ∀ before after, u = before ++ '"' :: after → (before.reverse ++ r).head? = some '\\') :
    Scan.run (.quoted r) u = ([], .quoted (u.reverse ++ r)) := by
  induction u generalizing r with
  | nil => rfl
  | cons c u ih =>
      have hc : ¬ (c = '"' ∧ r.head? ≠ some '\\') := by
        rintro ⟨rfl, hr⟩
        exact hr (hu [] u rfl)
      have hrest := ih (r := c :: r) (fun before after h => by
        have := hu (c :: before) after (by rw [h]; rfl)
        simpa using this)
      rw [Scan.run, Scan.step, if_neg hc]
      simp [hrest]

theorem run_quoted {u : Text} (hu : '"' ∉ u) (r : Text) :
    Scan.run (.quoted r) u = ([], .quoted (u.reverse ++ r)) :=
  run_escaped (fun _ _ h => absurd (by simp [h]) hu)

namespace CutOff

/-- A token that is cut off takes in what follows it. -/
theorem append {t u : Text} (ht : CutOff t) (hu : '"' ∉ u) : CutOff (t ++ u) := by
  obtain ⟨hrun, hhead⟩ := ht
  refine ⟨?_, ?_⟩
  · rw [Scan.run_append, hrun, run_quoted hu]
    simp
  · rw [List.head?_append, hhead]
    rfl

theorem tokenize_self {t : Text} (ht : CutOff t) : tokenize t = [t] := by
  simp [tokenize, ht.1, Scan.finish]

theorem tokenize_append {t u : Text} (ht : CutOff t) (hu : '"' ∉ u) :
    tokenize (t ++ u) = [t ++ u] :=
  (ht.append hu).tokenize_self

/-- No token is both. -/
theorem not_whole {t : Text} (ht : CutOff t) : ¬ Whole t := by
  rintro (h | h)
  · rw [ht.1] at h
    simp at h
  · rw [ht.1] at h
    simp at h

end CutOff

end MiniLisp
