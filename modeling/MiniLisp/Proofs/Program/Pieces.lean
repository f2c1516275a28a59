import MiniLisp.Proofs.Evaluation.Depth
import MiniLisp.Proofs.Program.Transcript
import MiniLisp.Proofs.Reader.Pieces

set_option autoImplicit false

/-! # Running a text in pieces

A complete piece of a text is run as it is on its own, and what follows it behind blanks is run in
the environment that it leaves (`runText_append`). So it makes no difference whether a file is run
as a whole or line by line, as long as no line but the last leaves a string or a list open or cannot
be read.

A run leaves the limit of the environment as it is, which is why the second piece is read in the
same way on its own.
-/

namespace MiniLisp

open Transcript

theorem maxDepth_runExprs (es : List Expr) (env : Environment) :
    (runExprs .ok es env).env.maxDepth = env.maxDepth := by
  have hmeets : Meets (fun env' => env'.maxDepth = env.maxDepth) (fun _ => True) (fun _ => True)
      (runExprs .ok es env) := by
    refine meets_runExprs (fun e _ env' henv' => ?_) rfl
    have hkept : (evaluate e env').env.maxDepth = env.maxDepth :=
      (maxDepth_evaluate e env').trans henv'
    rcases runExprs_singleton_cases e env' with ⟨v, -, h⟩ | ⟨f, -, h⟩ | ⟨k, -, h⟩
    all_goals
      rw [h]
      exact ⟨hkept, fun _ _ => trivial, fun _ _ => trivial⟩
  exact hmeets.env

theorem runText_of_read {t : Text} {env : Environment}
    (h : (readText env.maxDepth t).refused = none) :
    runText t env = runExprs .ok (readText env.maxDepth t).exprs env := by
  rw [runText_eq, h]
  exact followedBy_empty _

theorem runText_append {env : Environment} {t w : Text} (ht : Complete env.maxDepth t)
    (hne : w ≠ []) (hw : ∀ c ∈ w, Text.isBlank c) (u : Text) :
    runText (t ++ w ++ u) env = (runText t env).followedBy (runText u) := by
  rw [runText_eq, ht.readText_append hne hw, runExprs_append, followedBy_assoc,
    runText_of_read ht.read]
  apply followedBy_congr
  rw [runText_eq, maxDepth_runExprs]

/-! ## Lines -/

theorem Text.joinWith_cons {separator p : Text} {parts : List Text} (h : parts ≠ []) :
    Text.joinWith separator (p :: parts) = p ++ separator ++ Text.joinWith separator parts := by
  obtain ⟨q, rest, rfl⟩ := List.exists_cons_of_ne_nil h
  simp [Text.joinWith, List.intercalate]

theorem Text.splitOn_ne_nil (separator : Char) (t : Text) : Text.splitOn separator t ≠ [] := by
  cases t with
  | nil => simp [Text.splitOn]
  | cons c t =>
      rw [Text.splitOn]
      split
      · simp
      · split <;> simp

/-- The parts of a text, put together, are the text. -/
theorem Text.joinWith_splitOn (separator : Char) (t : Text) :
    Text.joinWith [separator] (Text.splitOn separator t) = t := by
  induction t with
  | nil => rfl
  | cons c t ih =>
      have hne := Text.splitOn_ne_nil separator t
      rw [Text.splitOn]
      split
      · next hc => rw [Text.joinWith_cons hne, ih, hc]; rfl
      · obtain ⟨p, parts, hparts⟩ := List.exists_cons_of_ne_nil hne
        rw [hparts] at ih ⊢
        cases parts with
        | nil => simpa [Text.joinWith, List.intercalate] using ih
        | cons q parts =>
            rw [Text.joinWith_cons (List.cons_ne_nil q parts)] at ih ⊢
            simpa using ih

/-- Texts in lines of their own are run in turn, if all but the last are complete. -/
theorem runText_joinWith {p : Text} {parts : List Text} {env : Environment}
    (h : ∀ q ∈ (p :: parts).dropLast, Complete env.maxDepth q) :
    runText (Text.joinWith ['\n'] (p :: parts)) env = runTexts (p :: parts) env := by
  induction parts generalizing p env with
  | nil =>
      rw [runTexts]
      simp [Text.joinWith, List.intercalate, runTexts, followedBy_empty]
  | cons q parts ih =>
      have hp : Complete env.maxDepth p := h p (by simp)
      have hblank : ∀ c ∈ ['\n'], Text.isBlank c := List.forall_mem_singleton.mpr rfl
      rw [Text.joinWith_cons (List.cons_ne_nil q parts), runText_append hp (by simp) hblank,
        runTexts]
      apply followedBy_congr
      apply ih
      intro r hr
      rw [runText_of_read hp.read, maxDepth_runExprs]
      exact h r (by simp [hr])

/-- **Running a text is running its pieces.** Where a piece does not end inside a string, closes
every list that it opens and can be read, running it with what follows it behind blanks is running
the one and then, in the environment that it leaves, the other: the elements are those of the one
and then those of the other, and what is left is the same. So a file whose lines, but for the last,
are such pieces is run line by line. -/
theorem runText_pieces :
    (∀ (env : Environment) (a w b : Text), endsQuoted a = false → openLists a = 0 →
        (readText env.maxDepth a).refused = none → w ≠ [] → (∀ c ∈ w, Text.isBlank c) →
          runText (a ++ w ++ b) env = (runText a env).followedBy (runText b)) ∧
      ∀ (env : Environment) (file : Text),
        (∀ line ∈ (Text.splitOn '\n' file).dropLast, Complete env.maxDepth line) →
          runText file env = runTexts (Text.splitOn '\n' file) env := by
  refine ⟨fun env a w b hquoted hclosed hread hne hw => ?_, fun env file hlines => ?_⟩
  · exact runText_append ⟨hquoted, hclosed, hread⟩ hne hw b
  · obtain ⟨line, lines, heq⟩ := List.exists_cons_of_ne_nil (Text.splitOn_ne_nil '\n' file)
    rw [heq] at hlines ⊢
    rw [← runText_joinWith hlines, ← heq, Text.joinWith_splitOn]

/-- A definition and, behind a blank, a use of the name that it defines. -/
theorem runText_definition_and_use :
    readText 1 "(def x true)" = ⟨[.list [.sym "def", .sym "x", .bool true]], none⟩ ∧
      runText ("(def x true)" ++ " " ++ "x") (.ofRoot .empty 1) =
        (runText "(def x true)" (.ofRoot .empty 1)).followedBy (runText "x") := by
  have hdefinition : Readable (.list [.sym "def", .sym "x", .bool true]) := by
    have hdef : Plain (.sym "def") := ⟨Or.inr rfl, by decide, by decide, rfl⟩
    have hx : Plain (.sym "x") := ⟨Or.inr rfl, by decide, by decide, rfl⟩
    rw [readable_list]
    simp only [List.forall_mem_cons]
    exact ⟨hdef.readable, hx.readable, (plain_bool true).readable, by simp⟩
  have hread : readText 1 "(def x true)" =
      ⟨[.list [.sym "def", .sym "x", .bool true]], none⟩ :=
    hdefinition.readText_display (by decide)
  refine ⟨hread, runText_pieces.1 (.ofRoot .empty 1) "(def x true)" " " "x" ?_ ?_ ?_ ?_ ?_⟩
  · decide
  · decide
  · show (readText 1 "(def x true)").refused = none
    rw [hread]
  · decide
  · exact List.forall_mem_singleton.mpr rfl

end MiniLisp
