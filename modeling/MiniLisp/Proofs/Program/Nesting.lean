import MiniLisp.Proofs.Evaluation.Depth
import MiniLisp.Proofs.Program.Transcript
import MiniLisp.Proofs.Reader.Reading

set_option autoImplicit false

/-! # One limit for reading and for evaluating

The reader counts the lists around a token, whether they are empty, closed or ever called; the
evaluation counts the lists that are called and in progress. Both are measured against the limit of
the environment, and the reader's count is never the smaller one. So an expression that was read is
never refused for its depth when it is evaluated (`not_isTooDeep_of_mem_readText`), and in a run a
failure for the depth is the failure to read on.
-/

namespace MiniLisp

open MiniLisp.Expr Transcript

/-- An expression that was read is no list, or its lists are nested as deep as the limit allows. -/
theorem nesting_of_mem_readText {limit : ℤ} {t : Text} {e : Expr}
    (he : e ∈ (readText limit t).exprs) : e.nesting = 0 ∨ (e.nesting : ℤ) ≤ limit := by
  cases readTokens_yielded (endsIn_tokenize t) he with
  | @whole u _ _ => exact Or.inl (nesting_atom u)
  | @cutOff u _ => exact Or.inl (nesting_atom u)
  | readable _ hn => exact Or.inr hn
  | broken _ _ _ hn => exact Or.inr hn

/-- Where no list is in progress, an expression that was read can be evaluated. -/
theorem not_isTooDeep_of_mem_readText {env : Environment} (hdepth : env.depth = 0) {t : Text}
    {e : Expr} (he : e ∈ (readText env.maxDepth t).exprs) {f : Fault}
    (h : (evaluate e env).result = .error f) : f.isTooDeep = false := by
  rw [← Bool.not_eq_true]
  intro hf
  obtain ⟨hpos, hlt⟩ := lt_filledNesting_of_isTooDeep h hf
  have hle := filledNesting_le_nesting e
  rcases nesting_of_mem_readText he with hn | hn <;> omega

/-- No expression of a text is refused for its depth while the text is run. -/
theorem meets_runExprs_readText {env : Environment} (hdepth : env.depth = 0) (t : Text) :
    Meets (fun env' => env'.depth = 0 ∧ env'.maxDepth = env.maxDepth)
      (fun x => ∀ f, x = .error f → f.cause.isTooDeep = false) (fun _ => True)
      (runExprs .ok (readText env.maxDepth t).exprs env) := by
  refine meets_runExprs (fun e he env' henv' => ?_) ⟨hdepth, rfl⟩
  obtain ⟨hdepth', hmax'⟩ := henv'
  have hkept : (evaluate e env').env.depth = 0 ∧ (evaluate e env').env.maxDepth = env.maxDepth :=
    ⟨(depth_evaluate e env').trans hdepth', (maxDepth_evaluate e env').trans hmax'⟩
  rcases runExprs_singleton_cases e env' with ⟨v, -, h⟩ | ⟨f, hf, h⟩ | ⟨k, -, h⟩
  · rw [h]
    exact ⟨hkept, by simp, by simp⟩
  · rw [h]
    refine ⟨hkept, ?_, by simp⟩
    intro x hx g hg
    obtain rfl : g = f := by
      rw [List.mem_singleton.mp hx] at hg
      exact (Except.error.inj hg).symm
    exact not_isTooDeep_of_mem_readText hdepth' (hmax' ▸ he) hf
  · rw [h]
    exact ⟨hkept, by simp, by simp⟩

/-- The elements of a run are those of its expressions and, at most, the failure to read on. -/
theorem elements_runText (t : Text) (env : Environment) :
    (runText t env).elements = (runExprs .ok (readText env.maxDepth t).exprs env).elements ∨
      ∃ c, (readText env.maxDepth t).refused = some c ∧
        (runText t env).elements =
          (runExprs .ok (readText env.maxDepth t).exprs env).elements ++ [.error (.ofCause c)] := by
  rw [runText_eq]
  generalize runExprs .ok (readText env.maxDepth t).exprs env = u
  cases h : u.escaped with
  | some k => exact Or.inl (by rw [followedBy_of_escaped h])
  | none =>
      rw [followedBy_of_not_escaped h]
      cases (readText env.maxDepth t).refused with
      | none => exact Or.inl (List.append_nil _)
      | some c => exact Or.inr ⟨c, rfl, rfl⟩

/-- **An evaluation is refused for its depth only if more non-empty lists are nested in one another
than the limit leaves room for.** So no expression of a text that could be read is refused where no
list is in progress, whatever is bound; and in a run of the text a failure for the depth is the last
element, comes behind the elements of all the expressions, and is the failure to read on. -/
theorem isTooDeep_only_from_reading :
    (∀ (e : Expr) (env : Environment) (f : Fault), (evaluate e env).result = .error f →
        f.isTooDeep = true → env.maxDepth - env.depth < e.filledNesting) ∧
      ∀ (t : Text) (env : Environment), env.depth = 0 →
        (∀ e ∈ (readText env.maxDepth t).exprs, ∀ f, (evaluate e env).result = .error f →
            f.isTooDeep = false) ∧
          ∀ before f after, (runText t env).elements = before ++ .error f :: after →
            f.cause.isTooDeep = true →
              before = (runExprs .ok (readText env.maxDepth t).exprs env).elements ∧
                after = [] ∧ f.notes = [] ∧ (readText env.maxDepth t).refused = some f.cause := by
  refine ⟨fun e env f h hf => (lt_filledNesting_of_isTooDeep h hf).2, fun t env hdepth => ?_⟩
  refine ⟨fun e he f h => not_isTooDeep_of_mem_readText hdepth he h, ?_⟩
  intro before f after heq hdeep
  -- the failure is not among the elements of the expressions
  have hnot : Except.error f ∉ (runExprs .ok (readText env.maxDepth t).exprs env).elements := by
    intro hmem
    have := (meets_runExprs_readText hdepth t).elements _ hmem f rfl
    rw [this] at hdeep
    contradiction
  rcases elements_runText t env with h | ⟨c, hc, h⟩
  · rw [h] at heq
    rw [heq] at hnot
    exact absurd (by simp) hnot
  · rw [h] at heq
    rcases List.eq_nil_or_concat after with rfl | ⟨after', z, rfl⟩
    · obtain ⟨hbefore, hlast⟩ := List.append_inj' heq rfl
      obtain rfl : Failure.ofCause c = f := by simpa using hlast
      exact ⟨hbefore.symm, rfl, rfl, hc⟩
    · rw [List.concat_eq_append, ← List.cons_append, ← List.append_assoc] at heq
      rw [(List.append_inj' heq rfl).1] at hnot
      exact absurd (by simp) hnot

/-- Under the limit 1 a list in a list is refused when it is read, behind what was evaluated. -/
theorem runText_nested_under_one :
    (runText "true (())" (.ofRoot .empty 1)).elements =
        [.ok (.bool true)] ++ .error (.ofCause (.tooDeep 1)) :: [] ∧
      (readText 1 "true (())").refused = some (.tooDeep 1) := by
  have htokens : tokenize "true (())" =
      [['t', 'r', 'u', 'e'], ['('], ['('], [')'], [')']] := by decide
  have hnested : readExpr 1 0 [['('], ['('], [')'], [')']] = (.error (.tooDeep 1), []) := by
    simp [readExpr, readItems, splitGroup, Except.map]
  have hread : readText 1 "true (())" = ⟨[.bool true], some (.tooDeep 1)⟩ := by
    rw [readText, htokens, readTokens_atom (by decide), readTokens_of_error hnested]
    rfl
  have hrun : (runText "true (())" (.ofRoot .empty 1)).elements =
      [.ok (.bool true)] ++ .error (.ofCause (.tooDeep 1)) :: [] := by
    rw [runText_eq, show (Environment.ofRoot .empty 1).maxDepth = 1 from rfl, hread]
    rfl
  obtain ⟨-, -, -, hrefused⟩ :=
    (isTooDeep_only_from_reading.2 "true (())" (.ofRoot .empty 1) rfl).2 _ _ _ hrun rfl
  exact ⟨hrun, hrefused⟩

end MiniLisp
