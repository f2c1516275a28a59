import MiniLisp.Proofs.Evaluation.Correspondence
import MiniLisp.Proofs.Evaluation.Depth
import MiniLisp.Proofs.Reader.OnePass
import MiniLisp.Proofs.Reader.Refusal

set_option autoImplicit false

/-! # Higher limits

The limit is consulted at every list that is opened and at every call. A higher limit answers
differently only where the lower one refuses, and a refusal is never taken back: no form of the
language handles a failure, and a list with a refused item is refused. So what is not refused for
its depth under a limit comes out the same under every higher one (`higher_limit`).

For the evaluation this is a correspondence of environments that differ in the limit alone. The
reader counts open lists against the limit and else never looks at it, so what it reads is what is
read without any limit.
-/

namespace MiniLisp

/-- Environments that differ in the limit alone, the first one having the lower limit. -/
def roomier : Correspondence where
  rel env₁ env₂ :=
    env₂.scopes = env₁.scopes ∧ env₂.depth = env₁.depth ∧ env₁.maxDepth ≤ env₂.maxDepth
  excused f := f.isTooDeep = true
  excused_addNote n hf := (Fault.isTooDeep_addNote n _).trans hf
  size h := by rw [h.1]
  get? h n := by rw [h.1]
  level? h n := by rw [h.1]
  depth h := h.2.1
  limit h := Or.inr ⟨h.2.2, rfl⟩
  put h n v := ⟨congrArg (·.put n v) h.1, h.2⟩
  push h f := ⟨congrArg (·.push f) h.1, h.2⟩
  shrink h n := ⟨congrArg (·.shrink n) h.1, h.2⟩
  withDepth h _ _ hd := ⟨h.1, hd, h.2.2⟩

/-- An evaluation that is not refused for its depth is the same under a higher limit. -/
theorem evaluate_of_le_limit {e : Expr} {env : Environment} {limit : ℤ}
    (hle : env.maxDepth ≤ limit)
    (h : ∀ f, (evaluate e env).result = .error f → f.isTooDeep = false) :
    evaluate e { env with maxDepth := limit } =
      ⟨(evaluate e env).result, { (evaluate e env).env with maxDepth := limit },
        (evaluate e env).events⟩ := by
  have hrel : roomier.rel env { env with maxDepth := limit } := ⟨rfl, rfl, hle⟩
  rcases roomier.evaluate hrel e with ⟨f, hf, hdeep⟩ | ⟨hresult, hevents, hscopes, hdepth, -⟩
  · have hnot := h f hf
    rw [show f.isTooDeep = true from hdeep] at hnot
    contradiction
  · have hmax : (evaluate e { env with maxDepth := limit }).env.maxDepth = limit :=
      maxDepth_evaluate e _
    have henv : (evaluate e { env with maxDepth := limit }).env =
        { (evaluate e env).env with maxDepth := limit } := Environment.ext hscopes hdepth hmax
    rw [← hresult, ← henv, ← hevents]

/-- Tokens that are not refused under a limit are read in the same way under a higher one. -/
theorem readExpr_of_le_limit {limit limit' depth : ℤ} {ts : List Token} (hle : limit ≤ limit')
    (h : ∀ c, (readExpr limit depth ts).1 ≠ .error c) :
    readExpr limit' depth ts = readExpr limit depth ts := by
  rcases hread : readExpr limit depth ts with ⟨c | first, rest⟩
  · exact absurd (by rw [hread]) (h c)
  rcases hread' : readExpr limit' depth ts with ⟨c | first', rest'⟩
  · -- more lists are open than the higher limit allows, so more than the lower one does
    obtain ⟨us, rfl⟩ := List.head?_eq_some_iff.mp (head?_of_refused hread')
    have hopen := (readExpr_group_refused limit' depth us).mp ⟨c, rest', hread'⟩
    obtain ⟨c', left, hrefused⟩ := (readExpr_group_refused limit depth us).mpr (by omega)
    exact absurd (by rw [hrefused]) (h c')
  · have hsame : (first', rest') = (first, rest) := by
      rw [← readOnce_of_readExpr hread, ← readOnce_of_readExpr hread']
    rw [Prod.mk.injEq] at hsame
    rw [hsame.1, hsame.2]

/-- **A higher limit changes nothing that was not refused.** An evaluation that does not fail for
its depth has the same result under every higher limit, from the same scopes and the same count,
with the same events, and it leaves the same scopes. Tokens that are read without being refused
give the same expression under every higher limit, with as many lists around them, and the same
tokens are left. -/
theorem higher_limit :
    (∀ (e : Expr) (env : Environment) (limit : ℤ), env.maxDepth ≤ limit →
      (∀ f, (evaluate e env).result = .error f → f.isTooDeep = false) →
        evaluate e { env with maxDepth := limit } =
          ⟨(evaluate e env).result, { (evaluate e env).env with maxDepth := limit },
            (evaluate e env).events⟩) ∧
      ∀ (limit limit' depth : ℤ) (ts : List Token), limit ≤ limit' →
        (∀ c, (readExpr limit depth ts).1 ≠ .error c) →
          readExpr limit' depth ts = readExpr limit depth ts :=
  ⟨fun _ _ _ hle h => evaluate_of_le_limit hle h,
    fun _ _ _ _ hle h => readExpr_of_le_limit hle h⟩

/-- Under the limit 2 a definition is made and then the call of an unknown name fails, and an
unfinished list with a list in it is read; so it is under the limit 9. -/
theorem higher_limit_two :
    let env : Environment := .ofRoot (.ofBindings [("x", .nil)]) 2
    let e : Expr := .list [.sym "eval", .list [.sym "def", .sym "y", .sym "x"], .list [.sym "f"]]
    let ts : List Token := [['('], ['('], [')'], ['x']]
    (evaluate e env).result = .error (.failure ⟨.unknownName "f", [.inForm .sequence]⟩) ∧
      evaluate e { env with maxDepth := 9 } =
        ⟨(evaluate e env).result, { (evaluate e env).env with maxDepth := 9 },
          (evaluate e env).events⟩ ∧
      readExpr 2 0 ts = (.ok (some (.list [.nil, .sym "x"])), []) ∧
      readExpr 9 0 ts = readExpr 2 0 ts := by
  intro env e ts
  have hresult : (evaluate e env).result =
      .error (.failure ⟨.unknownName "f", [.inForm .sequence]⟩) := rfl
  have hfault : ∀ f, (evaluate e env).result = .error f → f.isTooDeep = false := by
    rw [hresult]
    rintro f ⟨⟩
    rfl
  have hread : readExpr 2 0 ts = (.ok (some (.list [.nil, .sym "x"])), []) := by
    have hx : atom ['x'] = .sym "x" := rfl
    simp [ts, readExpr, readItems, splitGroup, Except.map, bind, Except.bind, pure, Except.pure,
      hx, Expr.nil]
  have hnot : ∀ c, (readExpr 2 0 ts).1 ≠ .error c := by
    rw [hread]
    rintro c ⟨⟩
  exact ⟨hresult, higher_limit.1 e env 9 (by decide) hfault, hread,
    higher_limit.2 2 9 0 ts (by decide) hnot⟩

end MiniLisp
