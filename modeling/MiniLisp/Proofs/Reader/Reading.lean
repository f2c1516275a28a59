import MiniLisp.Proofs.Reader.Unclosed

set_option autoImplicit false

/-! # What reading gives

Every expression that is read from a text is the expression of one token, or a list. A list holds
readable expressions only, or it is one that the end of the text breaks off: then the last of its
items, of the items of this item, and so on, is the expression of the token that is cut off
(`ReadFrom`). This is carried through the tokens by splitting them where a group ends: the token
that is cut off stays the last one of one of the two parts (`EndsIn.splitGroup`).
-/

namespace MiniLisp

open MiniLisp.Expr

/-! ## Groups of the tokens of a text -/

section

variable {cut : Option Token} {ts : List Token}

theorem endsIn_nil : EndsIn none [] := ⟨[], rfl, by simp, by simp⟩

theorem EndsIn.cons {t : Token} (ht : Whole t) (h : EndsIn cut ts) : EndsIn cut (t :: ts) := by
  obtain ⟨ws, rfl, hwhole, hcut⟩ := h
  exact ⟨t :: ws, rfl, List.forall_mem_cons.mpr ⟨ht, hwhole⟩, hcut⟩

theorem EndsIn.uncons {t : Token} (h : EndsIn cut (t :: ts)) :
    (Whole t ∧ EndsIn cut ts) ∨ (CutOff t ∧ cut = some t ∧ ts = []) := by
  obtain ⟨ws, heq, hwhole, hcut⟩ := h
  cases ws with
  | nil =>
      right
      cases cut with
      | none => contradiction
      | some c =>
          obtain ⟨rfl, rfl⟩ := List.cons.inj heq
          exact ⟨hcut t rfl, rfl, rfl⟩
  | cons w ws =>
      left
      obtain ⟨rfl, rfl⟩ := List.cons.inj heq
      obtain ⟨hw, hws⟩ := List.forall_mem_cons.mp hwhole
      exact ⟨hw, ws, rfl, hws, hcut⟩

theorem EndsIn.of_open (h : EndsIn cut (['('] :: ts)) : EndsIn cut ts := by
  rcases h.uncons with ⟨-, hends⟩ | ⟨hopen, -⟩
  · exact hends
  · exact absurd rfl hopen.ne_open

/-- A token ends the group that it stands in, or it stays inside. -/
theorem splitGroup_cons_cases (level : ℕ) (t : Token) (ts : List Token) :
    (t = [')'] ∧ splitGroup level (t :: ts) = ([], ts)) ∨
      ∃ inner, splitGroup level (t :: ts) =
        (t :: (splitGroup inner ts).1, (splitGroup inner ts).2) := by
  by_cases hopen : t = ['(']
  · right
    subst hopen
    exact ⟨level + 1, splitGroup_open level ts⟩
  by_cases hclose : t = [')']
  · subst hclose
    cases level with
    | zero => exact Or.inl ⟨rfl, splitGroup_end ts⟩
    | succ level => exact Or.inr ⟨level, splitGroup_close level ts⟩
  · exact Or.inr ⟨level, splitGroup_of_ne hopen hclose level ts⟩

/-- The token that is cut off stays behind the group, or the group goes on to the end. -/
theorem EndsIn.splitGroup (h : EndsIn cut ts) (level : ℕ) :
    (EndsIn none (splitGroup level ts).1 ∧ EndsIn cut (splitGroup level ts).2) ∨
      (EndsIn cut (splitGroup level ts).1 ∧ (splitGroup level ts).2 = []) := by
  induction ts generalizing level with
  | nil => exact Or.inr ⟨h, rfl⟩
  | cons t ts ih =>
      rcases h.uncons with ⟨ht, hts⟩ | ⟨ht, rfl, rfl⟩
      · rcases splitGroup_cons_cases level t ts with ⟨-, hsplit⟩ | ⟨inner, hsplit⟩
        · rw [hsplit]
          exact Or.inl ⟨endsIn_nil, hts⟩
        · rw [hsplit]
          rcases ih hts inner with ⟨hinside, hafter⟩ | ⟨hinside, hafter⟩
          · exact Or.inl ⟨hinside.cons ht, hafter⟩
          · exact Or.inr ⟨hinside.cons ht, hafter⟩
      · right
        rw [splitGroup_of_ne ht.ne_open ht.ne_close]
        exact ⟨h, rfl⟩

end

/-- No closing parenthesis in a group ends it. -/
theorem splitGroup_inside (level : ℕ) (ts : List Token) :
    splitGroup level (splitGroup level ts).1 = ((splitGroup level ts).1, []) := by
  induction ts generalizing level with
  | nil => rfl
  | cons t ts ih =>
      by_cases hopen : t = ['(']
      · subst hopen
        rw [splitGroup_open, splitGroup_open, ih]
      by_cases hclose : t = [')']
      · subst hclose
        cases level with
        | zero =>
            rw [splitGroup_end]
            rfl
        | succ level => rw [splitGroup_close, splitGroup_close, ih]
      · rw [splitGroup_of_ne hopen hclose, splitGroup_of_ne hopen hclose, ih]

/-- An inner group is split off in the same way whether the tokens end with the group around it or
go on, and the group around it ends where the one that is left of it behind the inner group does. -/
theorem splitGroup_splitGroup (outer level : ℕ) (ts : List Token) :
    splitGroup level (splitGroup (outer + level + 1) ts).1 =
        ((splitGroup level ts).1, (splitGroup outer (splitGroup level ts).2).1) ∧
      (splitGroup (outer + level + 1) ts).2 = (splitGroup outer (splitGroup level ts).2).2 := by
  induction ts generalizing level with
  | nil => exact ⟨rfl, rfl⟩
  | cons t ts ih =>
      by_cases hopen : t = ['(']
      · subst hopen
        obtain ⟨hinner, hafter⟩ := ih (level + 1)
        rw [splitGroup_open, splitGroup_open, splitGroup_open]
        exact ⟨by rw [← Nat.add_assoc] at hinner; rw [hinner], hafter⟩
      by_cases hclose : t = [')']
      · subst hclose
        rw [splitGroup_close]
        cases level with
        | zero =>
            rw [splitGroup_end, splitGroup_end]
            exact ⟨rfl, rfl⟩
        | succ level =>
            obtain ⟨hinner, hafter⟩ := ih level
            rw [splitGroup_close, splitGroup_close]
            exact ⟨by rw [← Nat.add_assoc, hinner], hafter⟩
      · obtain ⟨hinner, hafter⟩ := ih level
        rw [splitGroup_of_ne hopen hclose, splitGroup_of_ne hopen hclose,
          splitGroup_of_ne hopen hclose]
        exact ⟨by rw [hinner], hafter⟩

/-- Behind an inner group, no closing parenthesis ends the outer one if none did before. -/
theorem splitGroup_after {outer level : ℕ} {ts : List Token}
    (h : splitGroup (outer + level + 1) ts = (ts, [])) :
    splitGroup outer (splitGroup level ts).2 = ((splitGroup level ts).2, []) := by
  obtain ⟨hinner, hafter⟩ := splitGroup_splitGroup outer level ts
  rw [h] at hinner hafter
  have hinside : (splitGroup level ts).2 = (splitGroup outer (splitGroup level ts).2).1 :=
    congrArg Prod.snd hinner
  rw [Prod.ext_iff]
  exact ⟨hinside.symm, hafter.symm⟩

/-- What follows a list that no closing parenthesis ends the group of does not end it either. -/
theorem splitGroup_behind {ts : List Token}
    (h : splitGroup 0 (['('] :: ts) = (['('] :: ts, [])) :
    splitGroup 0 (splitGroup 0 ts).2 = ((splitGroup 0 ts).2, []) := by
  apply splitGroup_after
  rw [splitGroup_open] at h
  simpa [Prod.ext_iff] using h

/-- Nor do the tokens behind the first one, which is no closing parenthesis. -/
theorem splitGroup_tail {t : Token} {ts : List Token} (ht : t ≠ ['('])
    (h : splitGroup 0 (t :: ts) = (t :: ts, [])) :
    t ≠ [')'] ∧ splitGroup 0 ts = (ts, []) := by
  have hclose : t ≠ [')'] := by
    rintro rfl
    rw [splitGroup_end] at h
    simp at h
  rw [splitGroup_of_ne ht hclose] at h
  exact ⟨hclose, by simpa [Prod.ext_iff] using h⟩

/-! ## The items of a list -/

/-- The expressions that the tokens inside `depth` lists are read as, list by list. -/
inductive ItemsRead (limit : ℤ) : ℤ → List Token → List Expr → Prop
  | nil (depth : ℤ) : ItemsRead limit depth [] []
  | group {depth : ℤ} {ts : List Token} {items more : List Expr} (hdepth : depth < limit)
      (hinside : ItemsRead limit (depth + 1) (splitGroup 0 ts).1 items)
      (hbehind : ItemsRead limit depth (splitGroup 0 ts).2 more) :
      ItemsRead limit depth (['('] :: ts) (.list items :: more)
  | token {depth : ℤ} {t : Token} {ts : List Token} {more : List Expr} (ht : t ≠ ['('])
      (hrest : ItemsRead limit depth ts more) : ItemsRead limit depth (t :: ts) (atom t :: more)

/-- What is read without being refused is read list by list. -/
theorem itemsRead_of_readItems {limit depth : ℤ} {ts : List Token} {es : List Expr}
    (h : readItems limit depth ts = .ok es) : ItemsRead limit depth ts es := by
  induction depth, ts using readItems.induct limit generalizing es with
  | case1 depth =>
      rw [readItems] at h
      cases h
      exact .nil depth
  | case2 depth ts hdeep =>
      rw [readItems, if_pos rfl, if_pos hdeep] at h
      contradiction
  | case3 depth ts hdeep ihInside ihAfter =>
      obtain ⟨e, rest, more, hfirst, hmore, rfl⟩ := readItems_cases h
      rcases readExpr_cases hfirst with ⟨ht, -⟩ | ⟨-, hdepth, items, hitems, rfl, rfl⟩
      · contradiction
      · exact .group hdepth (ihInside hitems) (ihAfter hmore)
  | case4 depth t ts ht ih =>
      obtain ⟨e, rest, more, hfirst, hmore, rfl⟩ := readItems_cases h
      rcases readExpr_cases hfirst with ⟨-, rfl, rfl⟩ | ⟨hopen, -⟩
      · exact .token ht (ih hmore)
      · contradiction

/-- Items of a list that are readable, or the last of which is broken off in a token. -/
def ReadFrom : Option Token → List Expr → Prop
  | none, es => ∀ e ∈ es, Readable e
  | some c, es => ∃ (before : List Expr) (around : List (List Expr)),
      es = before ++ [unclosed around (atom c)] ∧ ReadableAround (before :: around)

theorem ReadFrom.cons {cut : Option Token} {e : Expr} {es : List Expr} (he : Readable e)
    (h : ReadFrom cut es) : ReadFrom cut (e :: es) := by
  cases cut with
  | none => exact List.forall_mem_cons.mpr ⟨he, h⟩
  | some c =>
      obtain ⟨before, around, rfl, hreadable⟩ := h
      obtain ⟨hbefore, haround⟩ := readableAround_cons.mp hreadable
      refine ⟨e :: before, around, rfl, readableAround_cons.mpr ⟨?_, haround⟩⟩
      exact List.forall_mem_cons.mpr ⟨he, hbefore⟩

theorem ReadFrom.list {cut : Option Token} {items : List Expr} (h : ReadFrom cut items) :
    ReadFrom cut [.list items] := by
  cases cut with
  | none =>
      intro e he
      rw [List.mem_singleton.mp he]
      exact readable_list.mpr h
  | some c =>
      obtain ⟨before, around, rfl, hreadable⟩ := h
      exact ⟨[], before :: around, rfl, readableAround_cons.mpr ⟨by simp, hreadable⟩⟩

namespace ItemsRead

variable {limit depth : ℤ} {ts : List Token} {es : List Expr}

/-- Whole tokens that close no group are read as readable expressions; a token that is cut off is
the last leaf. -/
theorem readFrom (h : ItemsRead limit depth ts es) {cut : Option Token} (hts : EndsIn cut ts)
    (hin : splitGroup 0 ts = (ts, [])) : ReadFrom cut es := by
  induction h generalizing cut with
  | nil depth =>
      obtain ⟨ws, heq, -⟩ := hts
      cases cut with
      | none => simp [ReadFrom]
      | some c => simp at heq
  | @group depth ts items more _ _ hbehind ihInside ihBehind =>
      -- neither what is inside the list nor what follows it ends a group around it
      have hinside := splitGroup_inside 0 ts
      have hafter := splitGroup_behind hin
      rcases hts.of_open.splitGroup 0 with ⟨hwhole, hcut⟩ | ⟨hcut, hnil⟩
      -- the list is closed before the token that is cut off, or it holds it and is the last item
      · have hlist := (ihInside hwhole hinside).list
        exact (ihBehind hcut hafter).cons (hlist _ (by simp))
      · rw [hnil] at hbehind
        cases hbehind
        exact (ihInside hcut hinside).list
  | token ht hrest ih =>
      obtain ⟨hclose, hin⟩ := splitGroup_tail ht hin
      rcases hts.uncons with ⟨hwhole, hends⟩ | ⟨hcutOff, rfl, rfl⟩
      -- a whole token is a readable item, one that is cut off is the last item
      · exact (ih hends hin).cons (plain_atom hwhole ht hclose).readable
      · cases hrest
        exact ⟨[], [], rfl, by simp [ReadableAround]⟩

/-- Lists are not read deeper than the limit. -/
theorem nesting_le (h : ItemsRead limit depth ts es) (hdepth : depth ≤ limit) :
    depth + nestingOfItems es ≤ limit := by
  induction h with
  | nil depth => simpa [nestingOfItems] using hdepth
  | group hlt _ _ ihInside ihBehind =>
      have hinside := ihInside (by omega)
      have hbehind := ihBehind hdepth
      rw [nestingOfItems, nesting]
      omega
  | token _ _ ih =>
      have hmore := ih hdepth
      rw [nestingOfItems, nesting_atom]
      omega

end ItemsRead

/-! ## The expressions of a text -/

/-- What an expression of a text that breaks off in a token can be. -/
inductive Yielded (limit : ℤ) (cut : Option Token) : Expr → Prop where
  | whole {t : Token} (ht : Whole t) (hopen : t ≠ ['(']) : Yielded limit cut (atom t)
  | cutOff {t : Token} (ht : CutOff t) : Yielded limit cut (atom t)
  | readable {items : List Expr} (hitems : ∀ e ∈ items, Readable e)
      (hn : ((list items).nesting : ℤ) ≤ limit) : Yielded limit cut (.list items)
  | broken {c : Token} (hcut : cut = some c) (hc : CutOff c) {items : List Expr}
      (hitems : ReadFrom (some c) items) (hn : ((list items).nesting : ℤ) ≤ limit) :
      Yielded limit cut (.list items)

/-- What the first expression is, and how the tokens behind it end. -/
theorem readExpr_yielded {limit : ℤ} {t : Token} {ts rest : List Token} {e : Expr}
    (h : readExpr limit 0 (t :: ts) = (.ok (some e), rest)) {cut : Option Token}
    (hts : EndsIn cut (t :: ts)) : Yielded limit cut e ∧ (EndsIn cut rest ∨ rest = []) := by
  rcases readExpr_cases h with ⟨ht, rfl, rfl⟩ | ⟨rfl, hlt, items, hitems, rfl, rfl⟩
  · rcases hts.uncons with ⟨hwhole, hends⟩ | ⟨hcutOff, -, hnil⟩
    · exact ⟨.whole hwhole ht, Or.inl hends⟩
    · exact ⟨.cutOff hcutOff, Or.inr hnil⟩
  · have hread := itemsRead_of_readItems hitems
    have hn : ((list items).nesting : ℤ) ≤ limit := by
      have := hread.nesting_le (by omega)
      rw [nesting]
      omega
    have hinside := splitGroup_inside 0 ts
    rcases hts.of_open.splitGroup 0 with ⟨hwhole, hcut⟩ | ⟨hcut, hnil⟩
    · exact ⟨.readable (hread.readFrom hwhole hinside) hn, Or.inl hcut⟩
    · refine ⟨?_, Or.inr hnil⟩
      have hfrom := hread.readFrom hcut hinside
      cases cut with
      | none => exact .readable hfrom hn
      | some c =>
          obtain ⟨-, -, -, hc⟩ := hcut
          exact .broken rfl (hc c rfl) hfrom hn

/-- Where there are tokens, an expression is read or refused. -/
theorem readExpr_ne_none (limit depth : ℤ) (t : Token) (ts rest : List Token) :
    readExpr limit depth (t :: ts) ≠ (.ok none, rest) := by
  intro h
  rw [readExpr] at h
  split at h
  · split at h
    · cases h
    · cases hitems : readItems limit (depth + 1) (splitGroup 0 ts).1 <;>
        simp only [hitems, Prod.mk.injEq] at h <;> cases h.1
  · cases h

/-- The first expression of some tokens is read, and then those behind it. -/
theorem readTokens_of_readExpr {limit : ℤ} {t : Token} {ts rest : List Token} {e : Expr}
    (h : readExpr limit 0 (t :: ts) = (.ok (some e), rest)) :
    readTokens limit (t :: ts) =
      ⟨e :: (readTokens limit rest).exprs, (readTokens limit rest).refused⟩ := by
  rw [readTokens]
  split
  · next hread _ => simp [h] at hread
  · next hread _ => simp [h] at hread
  · next f rest' _ hread _ =>
      rw [h] at hread
      simp only [Prod.mk.injEq, Except.ok.injEq, Option.some.injEq] at hread
      obtain ⟨rfl, rfl⟩ := hread
      rfl

theorem readTokens_atom {t : Token} (ht : t ≠ ['(']) (limit : ℤ) (ts : List Token) :
    readTokens limit (t :: ts) =
      ⟨atom t :: (readTokens limit ts).exprs, (readTokens limit ts).refused⟩ :=
  readTokens_of_readExpr (readExpr_atom ht limit 0 ts)

/-- Nothing is read where the first expression is refused. -/
theorem readTokens_of_error {limit : ℤ} {t : Token} {ts rest : List Token} {c : Cause}
    (h : readExpr limit 0 (t :: ts) = (.error c, rest)) :
    readTokens limit (t :: ts) = ⟨[], some c⟩ := by
  rw [readTokens]
  split
  · next d _ _ hread _ =>
      rw [h] at hread
      simp only [Prod.mk.injEq, Except.error.injEq] at hread
      rw [hread.1]
  · next hread _ => simp [h] at hread
  · next hread _ => simp [h] at hread

theorem exprs_readTokens {limit : ℤ} {t : Token} {ts rest : List Token} {e : Expr}
    (h : readExpr limit 0 (t :: ts) = (.ok (some e), rest)) :
    (readTokens limit (t :: ts)).exprs = e :: (readTokens limit rest).exprs := by
  rw [readTokens_of_readExpr h]

theorem mem_readTokens {limit : ℤ} {t : Token} {ts : List Token} {e : Expr}
    (he : e ∈ (readTokens limit (t :: ts)).exprs) :
    ∃ f rest, readExpr limit 0 (t :: ts) = (.ok (some f), rest) ∧
      (e = f ∨ e ∈ (readTokens limit rest).exprs) := by
  rw [readTokens] at he
  split at he
  · simp at he
  · simp at he
  · next f rest _ hread _ => exact ⟨f, rest, hread, List.mem_cons.mp he⟩

/-- **What the expressions of a text are.** -/
theorem readTokens_yielded {limit : ℤ} {ts : List Token} {cut : Option Token}
    (hts : EndsIn cut ts) {e : Expr} (he : e ∈ (readTokens limit ts).exprs) :
    Yielded limit cut e := by
  induction ts using readTokens.induct limit generalizing cut with
  | case1 => simp [readTokens] at he
  | case2 t ts c rest hlength hread =>
      obtain ⟨f, rest', hfirst, -⟩ := mem_readTokens he
      rw [hread] at hfirst
      simp at hfirst
  | case3 t ts rest hlength hread =>
      obtain ⟨f, rest', hfirst, -⟩ := mem_readTokens he
      rw [hread] at hfirst
      simp at hfirst
  | case4 t ts f rest hlength hread ih =>
      obtain ⟨hf, hrest⟩ := readExpr_yielded hread hts
      obtain ⟨f', rest', hfirst, he⟩ := mem_readTokens he
      rw [hread] at hfirst
      simp only [Prod.mk.injEq, Except.ok.injEq, Option.some.injEq] at hfirst
      obtain ⟨rfl, rfl⟩ := hfirst
      rcases he with rfl | he
      · exact hf
      -- the other expressions are those of the tokens behind the first one
      · rcases hrest with hrest | rfl
        · exact ih hrest he
        · simp [readTokens] at he

/-! ## Refusals -/

theorem readItems_error {limit depth : ℤ} {ts : List Token} {c : Cause}
    (h : readItems limit depth ts = .error c) : c = .tooDeep limit := by
  induction depth, ts using readItems.induct limit with
  | case1 depth =>
      rw [readItems] at h
      cases h
  | case2 depth ts hdeep =>
      rw [readItems, if_pos rfl, if_pos hdeep] at h
      cases h
      rfl
  | case3 depth ts hdeep ihInside ihAfter =>
      rw [readItems, if_pos rfl, if_neg hdeep] at h
      cases hinside : readItems limit (depth + 1) (splitGroup 0 ts).1 with
      | error c' =>
          rw [hinside] at h
          cases h
          exact ihInside hinside
      | ok items =>
          cases hafter : readItems limit depth (splitGroup 0 ts).2 with
          | error c' =>
              rw [hinside, hafter] at h
              cases h
              exact ihAfter hafter
          | ok more =>
              rw [hinside, hafter] at h
              cases h
  | case4 depth t ts ht ih =>
      rw [readItems, if_neg ht] at h
      cases hmore : readItems limit depth ts with
      | error c' =>
          rw [hmore] at h
          cases h
          exact ih hmore
      | ok more =>
          rw [hmore] at h
          cases h

theorem readExpr_error {limit depth : ℤ} {ts rest : List Token} {c : Cause}
    (h : readExpr limit depth ts = (.error c, rest)) : c = .tooDeep limit := by
  cases ts with
  | nil =>
      rw [readExpr] at h
      cases h
  | cons t ts =>
      rw [readExpr] at h
      split at h
      · split at h
        · cases h
          rfl
        · cases hitems : readItems limit (depth + 1) (splitGroup 0 ts).1 with
          | error c' =>
              simp only [hitems] at h
              cases h
              exact readItems_error hitems
          | ok items =>
              simp only [hitems] at h
              cases h
      · cases h

/-- **Text is refused only for its depth.** -/
theorem refused_readTokens {limit : ℤ} {ts : List Token} {c : Cause}
    (h : (readTokens limit ts).refused = some c) : c = .tooDeep limit := by
  induction ts using readTokens.induct limit with
  | case1 =>
      rw [readTokens] at h
      cases h
  | case2 t ts c' rest hlength hread =>
      rw [readTokens_of_error hread] at h
      cases h
      exact readExpr_error hread
  | case3 t ts rest hlength hread => exact absurd hread (readExpr_ne_none limit 0 t ts rest)
  | case4 t ts e rest hlength hread ih =>
      rw [readTokens_of_readExpr hread] at h
      exact ih h

/-! ## Single expressions -/

/-- A text whose tokens are those of one expression has this expression and no other. -/
theorem readText_of_readExpr {limit : ℤ} {t : Text} {e : Expr}
    (h : readExpr limit 0 (tokenize t) = (.ok (some e), [])) : readText limit t = ⟨[e], none⟩ := by
  rw [readText]
  cases htokens : tokenize t with
  | nil =>
      rw [htokens, readExpr] at h
      cases h
  | cons u us =>
      rw [htokens] at h
      rw [readTokens_of_readExpr h, readTokens]

section

variable {e : Expr} {limit : ℤ}

theorem Alone.readExpr_display (h : Alone e) (limit : ℤ) :
    readExpr limit 0 (tokenize e.display) = (.ok (some e), []) := by
  rw [h.tokenize_display, readExpr_atom h.not_open, h.atom_display]

/-- A readable expression is read from its text. -/
theorem Readable.readExpr_display (h : Readable e) (hn : (e.nesting : ℤ) ≤ limit) :
    readExpr limit 0 (tokenize e.display) = (.ok (some e), []) := by
  have hread : ReadAt limit 0 e := h.readAt (by omega)
  have hall := hread []
  rw [List.append_nil] at hall
  rw [tokenize_display h, hall]

theorem Alone.readText_display (h : Alone e) (limit : ℤ) :
    readText limit e.display = ⟨[e], none⟩ :=
  readText_of_readExpr (h.readExpr_display limit)

theorem Readable.readText_display (h : Readable e) (hn : (e.nesting : ℤ) ≤ limit) :
    readText limit e.display = ⟨[e], none⟩ :=
  readText_of_readExpr (h.readExpr_display hn)

end

/-! ## Leaves -/

/-- **Every leaf of an expression that was read stands alone.** -/
theorem alone_of_mem_readText {limit : ℤ} {t : Text} {e : Expr}
    (he : e ∈ (readText limit t).exprs) : ∀ l ∈ e.leaves, Alone l := by
  intro l hl
  cases readTokens_yielded (endsIn_tokenize t) he with
  | @whole u hu hopen =>
      rw [leaves_atom, List.mem_singleton] at hl
      rw [hl]
      exact alone_atom hu hopen
  | @cutOff u hu =>
      rw [leaves_atom, List.mem_singleton] at hl
      rw [hl]
      exact hu.alone
  | readable hitems _ => exact (readable_list.mpr hitems l hl).alone
  | @broken c _ hc items hitems _ =>
      obtain ⟨before, around, rfl, haround⟩ := hitems
      have hlist : Expr.list (before ++ [unclosed around (atom c)]) =
          unclosed (before :: around) (atom c) := rfl
      rw [hlist] at hl
      rcases plain_or_eq_of_mem_leaves_unclosed haround hl with hplain | rfl
      · exact hplain.alone
      · exact hc.alone

end MiniLisp
