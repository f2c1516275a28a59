import Mathlib.Tactic
import MiniLisp.Disk.Basic

set_option autoImplicit false

/-! # Files in a directory that is there

A name *leads* to a place if all the steps of its path but the last can be taken, and the last goes
down from a directory, in which something of this name can stand. Whether it does or not, what is
done with files then comes to what `Disk.put` does at this place, and it succeeds.

Putting a file where no directory is leaves every directory one, so names lead where they led
before (`Leads.put`).
-/

namespace MiniLisp.Disk

variable {d : Disk} {name : Text} {p q : Place}

/-! ## Putting a file -/

theorem lookup_filter_ne {es : List (Place × Entry)} (h : q ≠ p) :
    (es.filter (·.1 ≠ p)).lookup q = es.lookup q := by
  induction es with
  | nil => rfl
  | cons e es ih =>
      obtain ⟨r, e⟩ := e
      by_cases hr : r = p
      · have hq : (q == r) = false := by simpa [hr] using h
        simpa [hr, List.lookup_cons, hr ▸ hq] using ih
      · simp only [ne_eq, decide_not] at ih
        simp [hr, List.lookup_cons, ih]

theorem lookup_put_of_ne (h : q ≠ p) (c : Content) :
    (d.put p c).entries.lookup q = d.entries.lookup q := by
  have hq : (q == p) = false := by simpa using h
  rw [put, List.lookup_append, lookup_filter_ne h, List.lookup_cons, hq, List.lookup_nil,
    Option.or_none]

theorem entry_put_self (d : Disk) (p : Place) (c : Content) :
    Disk.entry? (d.put p c) p = some (.file c) := by
  have hnone : (d.entries.filter (·.1 ≠ p)).lookup p = none := by
    rw [List.lookup_eq_none_iff]
    intro e he
    have hne : e.1 ≠ p := by simpa using (List.mem_filter.mp he).2
    simpa using hne.symm
  have hself : (d.put p c).entries.lookup p = some (.file c) := by
    rw [put, List.lookup_append, hnone, List.lookup_cons_self, Option.none_or]
  unfold entry?
  rw [hself]

theorem put_put (d : Disk) (p : Place) (b c : Content) : (d.put p b).put p c = d.put p c := by
  simp [put, List.filter_append, List.filter_filter]

/-- A place stays above the files that it was above. -/
theorem any_isBelow_put (h : d.entries.any (·.1.isBelow q)) (p : Place) (c : Content) :
    (d.put p c).entries.any (·.1.isBelow q) := by
  obtain ⟨e, he, hbelow⟩ := List.any_eq_true.mp h
  rw [List.any_eq_true]
  by_cases hp : e.1 = p
  · exact ⟨(p, .file c), by simp [put], hp ▸ hbelow⟩
  · exact ⟨e, by simp [put, he, hp], hbelow⟩

/-- A file that is put somewhere else leaves a directory one. -/
theorem directory_put (h : d.entry? q = some .directory) (hne : q ≠ p) (c : Content) :
    Disk.entry? (d.put p c) q = some .directory := by
  unfold entry? at h ⊢
  rw [lookup_put_of_ne hne]
  cases hlookup : d.entries.lookup q with
  | some e =>
      rw [hlookup] at h
      exact h
  | none =>
      rw [hlookup] at h
      by_cases hin : (q.names = [] || (d.put p c).entries.any (·.1.isBelow q)) = true
      · simp only [hin, if_true]
      -- nothing is above the new file that was not above another one
      · have hout : ¬ (q.names = [] || d.entries.any (·.1.isBelow q)) = true := by
          intro hold
          rcases Bool.or_eq_true_iff.mp hold with hroot | habove
          · exact hin (Bool.or_eq_true_iff.mpr (Or.inl hroot))
          · exact hin (Bool.or_eq_true_iff.mpr (Or.inr (any_isBelow_put habove p c)))
        simp only [hout] at h
        simpa only [hin, if_false] using h

/-! ## Ways -/

/-- Steps are taken one after the other. -/
theorem walk_append (d : Disk) (p : Place) (ss ts : List Path.Step) :
    d.walk p (ss ++ ts) = (d.walk p ss).bind fun q => d.walk q ts := by
  induction ss generalizing p with
  | nil => rfl
  | cons s ss ih =>
      rw [List.cons_append, walk, walk]
      cases d.step p s with
      | error e => rfl
      | ok r => exact ih r

theorem step_down {last : Text} (h : d.entry? p = some .directory)
    (hlast : byteCount last ≤ nameLimit) : d.step p (.down last) = .ok (p.child last) := by
  simp only [step, h]
  exact if_neg (by omega)

/-- A step can be taken where all the directories are directories. -/
theorem step_mono {d' : Disk}
    (h : ∀ r, d.entry? r = some .directory → d'.entry? r = some .directory) {s : Path.Step}
    (hstep : d.step p s = .ok q) : d'.step p s = .ok q := by
  cases hp : d.entry? p with
  | none => simp [step, hp] at hstep
  | some e =>
      cases e with
      | directory =>
          rw [← hstep]
          simp only [step, hp, h p hp]
      | file c => cases s <;> simp [step, hp] at hstep
      | sink => cases s <;> simp [step, hp] at hstep

theorem walk_mono {d' : Disk}
    (h : ∀ r, d.entry? r = some .directory → d'.entry? r = some .directory)
    {ss : List Path.Step} (hwalk : d.walk p ss = .ok q) : d'.walk p ss = .ok q := by
  induction ss generalizing p with
  | nil => exact hwalk
  | cons s ss ih =>
      rw [walk] at hwalk ⊢
      cases hstep : d.step p s with
      | error e => simp [hstep, Except.bind] at hwalk
      | ok r =>
          rw [hstep] at hwalk
          rw [step_mono h hstep]
          exact ih hwalk

/-! ## Names of files -/

/-- Whether a name is that of a place in a directory that is there. -/
inductive Leads (d : Disk) (name : Text) : Place → Prop where
  | intro (w : Path) (before : List Path.Step) (directory : Place) (last : Text)
      (hpath : path name = .ok w) (hfile : w.toDirectory = false)
      (hsteps : w.steps = before ++ [.down last]) (hwalk : d.walk w.start before = .ok directory)
      (hdirectory : d.entry? directory = some .directory) (hlast : byteCount last ≤ nameLimit) :
      Leads d name (directory.child last)

namespace Leads

theorem find_eq (h : d.Leads name p) :
    d.find name = match d.entry? p with
      | none => .error .notFound
      | some e => .ok (p, e) := by
  obtain ⟨w, before, directory, last, hpath, hfile, hsteps, hwalk, hdirectory, hlast⟩ := h
  have hend : d.walk w.start w.steps = .ok (directory.child last) := by
    rw [hsteps, walk_append, hwalk]
    simp [Except.bind, walk, step_down hdirectory hlast]
  rw [find, hpath]
  simp only [bind, Except.bind, hend, hfile]
  cases d.entry? (directory.child last) <;> simp

theorem has_eq (h : d.Leads name p) : d.has name = ( d.entry? p).isSome := by
  rw [has, h.find_eq]
  cases d.entry? p <;> rfl

theorem create_eq (h : d.Leads name p) (c : Content) : d.create name c = .ok (d.put p c) := by
  obtain ⟨w, before, directory, last, hpath, hfile, hsteps, hwalk, hdirectory, hlast⟩ := h
  have hstay : d.step directory .stay = .ok directory := by
    simp only [step, hdirectory]
    rfl
  rw [create, hpath]
  simp [bind, Except.bind, pure, Except.pure, hsteps, hwalk, hstay, hfile,
    step_down hdirectory hlast]

theorem append_eq (h : d.Leads name p) {content : Content}
    (hp : d.entry? p = some (.file content)) (added : Content) :
    d.append name added = .ok (d.put p (content ++ added)) := by
  rw [append, h.find_eq, hp]
  rfl

/-- A file is changed if a working copy can stand beside it. -/
theorem modify_eq (h : d.Leads name p) {copy : Place} (hcopy : d.Leads (name ++ workingSuffix) copy)
    {content : Content} (hp : d.entry? p = some (.file content)) (change : Content → Content) :
    d.modify name change = d.put p (change content) := by
  rw [modify, h.find_eq, hp, hcopy.create_eq]

/-- A file that is put where no directory is changes no way. -/
theorem put (h : d.Leads name q) (hp : d.entry? p ≠ some .directory) (c : Content) :
    (d.put p c).Leads name q := by
  have hkept : ∀ r, d.entry? r = some .directory → Disk.entry? (d.put p c) r = some .directory := by
    intro r hr
    refine directory_put hr ?_ c
    rintro rfl
    exact hp hr
  obtain ⟨w, before, directory, last, hpath, hfile, hsteps, hwalk, hdirectory, hlast⟩ := h
  exact .intro w before directory last hpath hfile hsteps (walk_mono hkept hwalk)
    (hkept directory hdirectory) hlast

end Leads

end MiniLisp.Disk
