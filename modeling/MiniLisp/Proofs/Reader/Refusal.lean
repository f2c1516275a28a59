import MiniLisp.Proofs.Reader.Pieces

set_option autoImplicit false

/-! # What is refused for its depth

The reader meets the limit list by list: each list is split off the tokens first, and refused if it
stands too deep when its own parenthesis is read. What this comes to for all the tokens of a list is
a single count. While the tokens of the first expression are passed over from the left, so many
lists are open at the same time; the expression is refused if and only if that number exceeds what
the limit leaves room for (`readExpr_refused_iff`).

The step is the one by which lists are read: what is open inside a list is open there and in the
list, and what follows the list is not (`mostOpen_group`). The run of tokens of a list is described
by the count alone (`GroupRun`), without the splitting that the reader does.
-/

namespace MiniLisp

/-! ## The lists that are open at the same time -/

/-- The largest number of lists that are open at the same time while tokens are passed over, where
so many are open in front of them. -/
def mostOpen : ℕ → List Token → ℕ
  | n, [] => n
  | n, t :: ts =>
      max n (mostOpen (if t = ['('] then n + 1 else if t = [')'] then n - 1 else n) ts)

theorem le_mostOpen (n : ℕ) (ts : List Token) : n ≤ mostOpen n ts := by
  cases ts with
  | nil => exact le_refl n
  | cons t ts => exact le_max_left _ _

theorem mostOpen_open (n : ℕ) (ts : List Token) :
    mostOpen n (['('] :: ts) = mostOpen (n + 1) ts := by
  have := le_mostOpen (n + 1) ts
  rw [mostOpen, if_pos rfl]
  omega

theorem mostOpen_close (n : ℕ) (ts : List Token) :
    mostOpen (n + 1) ([')'] :: ts) = max (n + 1) (mostOpen n ts) := by
  rw [mostOpen, if_neg (by decide), if_pos rfl, Nat.add_sub_cancel]

/-- A closing parenthesis closes nothing where no list is open. -/
theorem mostOpen_close_zero (ts : List Token) : mostOpen 0 ([')'] :: ts) = mostOpen 0 ts := by
  rw [mostOpen, if_neg (by decide), if_pos rfl, Nat.zero_sub, Nat.zero_max]

theorem mostOpen_of_ne {t : Token} (hopen : t ≠ ['(']) (hclose : t ≠ [')']) (n : ℕ)
    (ts : List Token) : mostOpen n (t :: ts) = mostOpen n ts := by
  rw [mostOpen, if_neg hopen, if_neg hclose]
  exact max_eq_right (le_mostOpen n ts)

/-- The lists around a group stay open inside it, whatever their number. -/
theorem mostOpen_inside (n level : ℕ) (ts : List Token) :
    mostOpen (n + level) (splitGroup level ts).1 = n + mostOpen level (splitGroup level ts).1 := by
  induction ts generalizing level with
  | nil => rfl
  | cons t ts ih =>
      by_cases hopen : t = ['(']
      · subst hopen
        rw [splitGroup_open, mostOpen_open, mostOpen_open, Nat.add_assoc, ih (level + 1)]
      by_cases hclose : t = [')']
      · subst hclose
        cases level with
        | zero =>
            rw [splitGroup_end]
            rfl
        | succ level =>
            rw [splitGroup_close, ← Nat.add_assoc, mostOpen_close, mostOpen_close, ih level]
            omega
      · rw [splitGroup_of_ne hopen hclose, mostOpen_of_ne hopen hclose,
          mostOpen_of_ne hopen hclose, ih level]

/-- Tokens that a group is split off are inside it, or behind it with one list less. -/
theorem mostOpen_splitGroup (n level : ℕ) (ts : List Token) :
    mostOpen (n + level + 1) ts =
      max (mostOpen (n + level + 1) (splitGroup level ts).1)
        (mostOpen n (splitGroup level ts).2) := by
  induction ts generalizing level with
  | nil =>
      simp only [splitGroup, mostOpen]
      omega
  | cons t ts ih =>
      by_cases hopen : t = ['(']
      · subst hopen
        rw [splitGroup_open, mostOpen_open, mostOpen_open]
        exact ih (level + 1)
      by_cases hclose : t = [')']
      · subst hclose
        rw [mostOpen_close]
        cases level with
        | zero =>
            rw [splitGroup_end]
            rfl
        | succ level =>
            rw [splitGroup_close, mostOpen_close, ← Nat.add_assoc, ih level, max_assoc]
      · rw [splitGroup_of_ne hopen hclose, mostOpen_of_ne hopen hclose,
          mostOpen_of_ne hopen hclose]
        exact ih level

/-- **Inside a list one more is open**, and behind it nothing of it. -/
theorem mostOpen_group (ts : List Token) :
    mostOpen 0 (['('] :: ts) =
      max (mostOpen 0 (splitGroup 0 ts).1 + 1) (mostOpen 0 (splitGroup 0 ts).2) := by
  have hsplit := mostOpen_splitGroup 0 0 ts
  have hinside := mostOpen_inside 1 0 ts
  rw [mostOpen_open, hsplit, hinside, Nat.add_comm 1]

/-! ## Refusals of items -/

theorem readItems_group_refused_iff {limit depth : ℤ} (hdepth : depth < limit) (ts : List Token) :
    (∃ c, readItems limit depth (['('] :: ts) = .error c) ↔
      (∃ c, readItems limit (depth + 1) (splitGroup 0 ts).1 = .error c) ∨
        ∃ c, readItems limit depth (splitGroup 0 ts).2 = .error c := by
  rw [readItems, if_pos rfl, if_neg (not_le.mpr hdepth)]
  cases readItems limit (depth + 1) (splitGroup 0 ts).1 with
  | error c => exact iff_of_true ⟨c, rfl⟩ (Or.inl ⟨c, rfl⟩)
  | ok items =>
      cases readItems limit depth (splitGroup 0 ts).2 with
      | error c => exact iff_of_true ⟨c, rfl⟩ (Or.inr ⟨c, rfl⟩)
      | ok more => simp [bind, Except.bind, pure, Except.pure]

theorem readItems_atom_refused_iff {t : Token} (ht : t ≠ ['(']) (limit depth : ℤ)
    (ts : List Token) :
    (∃ c, readItems limit depth (t :: ts) = .error c) ↔
      ∃ c, readItems limit depth ts = .error c := by
  rw [readItems, if_neg ht]
  cases readItems limit depth ts with
  | error c => exact iff_of_true ⟨c, rfl⟩ ⟨c, rfl⟩
  | ok more => simp [bind, Except.bind, pure, Except.pure]

/-- Items are refused if and only if more lists are open at the same time than there is room for. -/
theorem readItems_refused_iff {limit depth : ℤ} (hdepth : depth ≤ limit) (ts : List Token) :
    (∃ c, readItems limit depth ts = .error c) ↔ limit - depth < mostOpen 0 ts := by
  induction depth, ts using readItems.induct limit with
  | case1 depth =>
      rw [readItems, mostOpen]
      refine iff_of_false ?_ (by omega)
      rintro ⟨c, hc⟩
      contradiction
  | case2 depth ts hdeep =>
      have := le_mostOpen (0 + 1) ts
      rw [readItems, if_pos rfl, if_pos hdeep, mostOpen_open]
      exact iff_of_true ⟨_, rfl⟩ (by omega)
  | case3 depth ts hdeep ihInside ihAfter =>
      have hinside := ihInside (by omega)
      have hafter := ihAfter hdepth
      rw [readItems_group_refused_iff (not_le.mp hdeep), hinside, hafter, mostOpen_group]
      omega
  | case4 depth t ts ht ih =>
      rw [readItems_atom_refused_iff ht, ih hdepth]
      by_cases hclose : t = [')']
      · rw [hclose, mostOpen_close_zero]
      · rw [mostOpen_of_ne ht hclose]

/-! ## The run of a list -/

/-- The tokens of a list that stands in front, and those behind them. Its run starts with its
parenthesis and ends with the one that matches it, where no list is open for the first time, or at
the end of the tokens if none matches it. -/
structure GroupRun (ts run rest : List Token) : Prop where
  split : ts = run ++ rest
  opening : run.head? = some ['(']
  inside : ∀ before after, run = before ++ after → before ≠ [] → after ≠ [] →
    0 < openAfter 0 before
  ending : openAfter 0 run = 0 ∨ rest = []

/-- There is only one run. -/
theorem GroupRun.unique {ts run rest run' rest' : List Token} (h : GroupRun ts run rest)
    (h' : GroupRun ts run' rest') : run' = run ∧ rest' = rest := by
  have hne : ∀ {us : List Token}, us.head? = some ['('] → us ≠ [] := by
    rintro us hus rfl
    contradiction
  -- of two runs the shorter one would end inside the longer one
  have hprefix : ∀ {us vs ws d : List Token}, us ≠ [] → GroupRun ts (us ++ d) ws →
      (openAfter 0 us = 0 ∨ vs = []) → vs = d ++ ws → d = [] := by
    intro us vs ws d hus hlonger hending hvs
    by_contra hd
    have hopen := hlonger.inside us d rfl hus hd
    rcases hending with hzero | hnil
    · omega
    · rw [hnil] at hvs
      exact hd (List.append_eq_nil_iff.mp hvs.symm).1
  have hsplit : run ++ rest = run' ++ rest' := by rw [← h.split, ← h'.split]
  rcases List.append_eq_append_iff.mp hsplit with ⟨d, hrun, hrest⟩ | ⟨d, hrun, hrest⟩
  · subst hrun
    obtain rfl := hprefix (hne h.opening) h' h.ending hrest
    exact ⟨List.append_nil run, by rw [hrest, List.nil_append]⟩
  · subst hrun
    obtain rfl := hprefix (hne h'.opening) h h'.ending hrest
    exact ⟨(List.append_nil run').symm, by rw [hrest, List.nil_append]⟩

/-- Where a group is split off, the tokens up to its end keep a list open before they end, and close
all of them there or are the last ones. -/
theorem splitGroup_run (level : ℕ) (ts : List Token) :
    ∃ run, ts = run ++ (splitGroup level ts).2 ∧
      (∀ before after, run = before ++ after → after ≠ [] → 0 < openAfter (level + 1) before) ∧
      (openAfter (level + 1) run = 0 ∨ (splitGroup level ts).2 = []) ∧
      mostOpen (level + 1) run = mostOpen (level + 1) (splitGroup level ts).1 := by
  induction ts generalizing level with
  | nil =>
      refine ⟨[], rfl, ?_, Or.inr rfl, rfl⟩
      intro before after hrun hafter
      exact absurd (List.append_eq_nil_iff.mp hrun.symm).2 hafter
  | cons t ts ih =>
      -- a token in front of a run is in front of what comes before a place in the run
      have hcons : ∀ {inner : ℕ} {run : List Token},
          (∀ before, openAfter (level + 1) (t :: before) = openAfter (inner + 1) before) →
          (∀ before after, run = before ++ after → after ≠ [] → 0 < openAfter (inner + 1) before) →
          ∀ before after, t :: run = before ++ after → after ≠ [] →
            0 < openAfter (level + 1) before := by
        intro inner run hstep hrun before after heq hafter
        cases before with
        | nil => exact Nat.succ_pos level
        | cons u before =>
            obtain ⟨rfl, hrest⟩ := List.cons.inj heq
            rw [hstep]
            exact hrun before after hrest hafter
      by_cases hopen : t = ['(']
      · subst hopen
        obtain ⟨run, hts, hinside, hending, hmost⟩ := ih (level + 1)
        rw [splitGroup_open]
        refine ⟨['('] :: run, congrArg _ hts, hcons (fun _ => rfl) hinside, hending, ?_⟩
        rw [mostOpen_open, mostOpen_open]
        exact hmost
      by_cases hclose : t = [')']
      · subst hclose
        cases level with
        | zero =>
            rw [splitGroup_end]
            refine ⟨[[')']], rfl, ?_, Or.inl rfl, rfl⟩
            intro before after heq hafter
            cases before with
            | nil => exact Nat.one_pos
            | cons u before =>
                obtain ⟨-, hrest⟩ := List.cons.inj heq
                exact absurd (List.append_eq_nil_iff.mp hrest.symm).2 hafter
        | succ level =>
            obtain ⟨run, hts, hinside, hending, hmost⟩ := ih level
            rw [splitGroup_close]
            refine ⟨[')'] :: run, congrArg _ hts, hcons (fun _ => rfl) hinside, hending, ?_⟩
            rw [mostOpen_close, mostOpen_close, hmost]
      · obtain ⟨run, hts, hinside, hending, hmost⟩ := ih level
        have hstep := openAfter_of_ne hopen hclose (level + 1)
        rw [splitGroup_of_ne hopen hclose]
        refine ⟨t :: run, congrArg _ hts, hcons hstep hinside, ?_, ?_⟩
        · rw [hstep]
          exact hending
        · rw [mostOpen_of_ne hopen hclose, mostOpen_of_ne hopen hclose, hmost]

/-- The run of a list ends where the group behind its parenthesis does. -/
theorem exists_groupRun (ts : List Token) :
    ∃ run, GroupRun (['('] :: ts) run (splitGroup 0 ts).2 ∧
      mostOpen 0 run = mostOpen 0 (splitGroup 0 ts).1 + 1 := by
  obtain ⟨run, hts, hinside, hending, hmost⟩ := splitGroup_run 0 ts
  refine ⟨['('] :: run, ⟨congrArg _ hts, rfl, ?_, hending⟩, ?_⟩
  · intro before after heq hbefore hafter
    obtain ⟨t, before, rfl⟩ := List.exists_cons_of_ne_nil hbefore
    obtain ⟨rfl, hrest⟩ := List.cons.inj heq
    exact hinside before after hrest hafter
  · have hshift := mostOpen_inside 1 0 ts
    rw [mostOpen_open, hmost, hshift, Nat.add_comm]

theorem exists_groupRun_iff (ts : List Token) :
    (∃ run rest, GroupRun ts run rest) ↔ ts.head? = some ['('] := by
  constructor
  · rintro ⟨run, rest, h⟩
    rw [h.split, List.head?_append, h.opening]
    rfl
  · intro h
    obtain ⟨ts, rfl⟩ := List.head?_eq_some_iff.mp h
    obtain ⟨run, hrun, -⟩ := exists_groupRun ts
    exact ⟨run, _, hrun⟩

/-! ## Refusals of expressions -/

/-- A list is refused at once if there is no room for it, and for what is inside it otherwise. -/
theorem readExpr_group_refused_iff {limit depth : ℤ} {ts : List Token} {c : Cause}
    {left : List Token} :
    readExpr limit depth (['('] :: ts) = (.error c, left) ↔
      if limit ≤ depth then c = .tooDeep limit ∧ left = ts
      else readItems limit (depth + 1) (splitGroup 0 ts).1 = .error c ∧
        left = (splitGroup 0 ts).2 := by
  rw [readExpr, if_pos rfl]
  split
  · rw [Prod.mk.injEq, Except.error.injEq, eq_comm, eq_comm (a := ts)]
  · simp only [Prod.mk.injEq]
    refine and_congr ?_ eq_comm
    cases readItems limit (depth + 1) (splitGroup 0 ts).1 with
    | error c' => simp [Except.map]
    | ok items => simp [Except.map]

/-- A list is refused if and only if more lists are open inside it than there is room for. -/
theorem readExpr_group_refused (limit depth : ℤ) (ts : List Token) :
    (∃ c left, readExpr limit depth (['('] :: ts) = (.error c, left)) ↔
      limit - depth < mostOpen 0 (splitGroup 0 ts).1 + 1 := by
  simp only [readExpr_group_refused_iff]
  split
  · exact iff_of_true ⟨_, _, rfl, rfl⟩ (by omega)
  · next hroom =>
      have hdepth : depth + 1 ≤ limit := by omega
      have hitems := readItems_refused_iff hdepth (splitGroup 0 ts).1
      simp only [exists_and_left, exists_eq, and_true, hitems]
      omega

/-- What is refused is a list. -/
theorem head?_of_refused {limit depth : ℤ} {ts left : List Token} {c : Cause}
    (h : readExpr limit depth ts = (.error c, left)) : ts.head? = some ['('] := by
  cases ts with
  | nil =>
      rw [readExpr] at h
      cases h
  | cons t ts =>
      by_contra ht
      have hopen : t ≠ ['('] := by
        rintro rfl
        exact ht rfl
      rw [readExpr_atom hopen] at h
      cases h

/-- **An expression is refused exactly for too many open lists.** Whatever the tokens are, and
whatever the limit and the number of lists around them, nothing is read if and only if the tokens
start with a list and the largest number of lists open at the same time in its run exceeds what the
limit leaves room for. The run is the one from its parenthesis on, so an expression that is no list
has none, and no limit refuses it. The cause names the limit; the tokens that are left are those
behind the run, or those behind its first parenthesis if there is no room for any list. -/
theorem readExpr_refused_iff (limit depth : ℤ) (ts : List Token) :
    ((∃ c left, readExpr limit depth ts = (.error c, left)) ↔
        ∃ run rest, GroupRun ts run rest ∧ limit - depth < mostOpen 0 run) ∧
      (∀ c left, readExpr limit depth ts = (.error c, left) →
        c = .tooDeep limit ∧ ∃ run rest, GroupRun ts run rest ∧
          left = if 1 ≤ limit - depth then rest else ts.tail) ∧
      ((∃ run rest, GroupRun ts run rest) ↔ ts.head? = some ['(']) ∧
      ∀ run rest run' rest', GroupRun ts run rest → GroupRun ts run' rest' →
        run' = run ∧ rest' = rest := by
  refine ⟨⟨?_, ?_⟩, ?_, exists_groupRun_iff ts, fun run rest run' rest' h h' => h.unique h'⟩
  · rintro ⟨c, left, h⟩
    obtain ⟨ts, rfl⟩ := List.head?_eq_some_iff.mp (head?_of_refused h)
    obtain ⟨run, hrun, hmost⟩ := exists_groupRun ts
    have hopen := (readExpr_group_refused limit depth ts).mp ⟨c, left, h⟩
    exact ⟨run, _, hrun, by omega⟩
  · rintro ⟨run, rest, hrun, hopen⟩
    obtain ⟨ts, rfl⟩ := List.head?_eq_some_iff.mp ((exists_groupRun_iff ts).mp ⟨run, rest, hrun⟩)
    obtain ⟨run', hrun', hmost⟩ := exists_groupRun ts
    obtain ⟨rfl, -⟩ := hrun.unique hrun'
    exact (readExpr_group_refused limit depth ts).mpr (by omega)
  · intro c left h
    refine ⟨readExpr_error h, ?_⟩
    obtain ⟨ts, rfl⟩ := List.head?_eq_some_iff.mp (head?_of_refused h)
    obtain ⟨run, hrun, -⟩ := exists_groupRun ts
    refine ⟨run, _, hrun, ?_⟩
    rw [readExpr_group_refused_iff] at h
    split at h
    · rw [if_neg (by omega), h.2, List.tail_cons]
    · rw [if_pos (by omega), h.2]

/-- A list in a list, in front of a name, where there is room for one list: both are passed over. -/
theorem readExpr_refused_iff_nested :
    let ts : List Token := [['('], ['a'], ['('], [')'], [')'], ['b']]
    readExpr 1 0 ts = (.error (.tooDeep 1), [['b']]) ∧
      (∃ run rest, GroupRun ts run rest ∧ 1 - 0 < (mostOpen 0 run : ℤ)) ∧
      ∃ run, GroupRun ts run [['b']] := by
  intro ts
  have hread : readExpr 1 0 ts = (.error (.tooDeep 1), [['b']]) := by
    simp [ts, readExpr, readItems, splitGroup, Except.map, bind, Except.bind]
  obtain ⟨hiff, hleft, -, -⟩ := readExpr_refused_iff 1 0 ts
  obtain ⟨-, run, rest, hrun, hrest⟩ := hleft _ _ hread
  rw [if_pos (by decide)] at hrest
  exact ⟨hread, hiff.mp ⟨_, _, hread⟩, run, hrest ▸ hrun⟩

end MiniLisp
