import Mathlib.Data.List.DropRight
import MiniLisp.Proofs.Disk.Place
import MiniLisp.Session.History

set_option autoImplicit false

/-! # The lines of a history file

A file that holds entries only, each on a line of its own, is cut to its last lines as they stand
(`cut_unlines`). Saving a history then adds to the lines of the file, if there is one, what has not
been saved, and keeps the last lines (`store_eq`). For this the history has to be *tied* to the
file: all that it has in memory is in the file, or was before the file was cut, and nothing is in
memory as long as there is no file.

What is entered in other sessions in the meantime is only in the file. A history stays tied to it
when other sessions put it in place (`Tied.put`), because only the number of its entries counts.
-/

namespace MiniLisp.History

open Disk (Content)

/-- A line that is kept as one entry. -/
structure IsEntry (l : Content) : Prop where
  ne_nil : l ≠ []
  not_ended : lineFeed ∉ l
  no_nul : Disk.Piece.char '\x00' ∉ l

/-! ## Cutting -/

theorem unlines_cons (l : Content) (ls : List Content) :
    unlines (l :: ls) = l ++ lineFeed :: unlines ls := by
  simp [unlines]

theorem unlines_append (ls ms : List Content) : unlines (ls ++ ms) = unlines ls ++ unlines ms :=
  List.flatMap_append

/-- A line is counted where it ends. -/
theorem linesFrom_ended {l rest : Content} (hl : lineFeed ∉ l)
    (hrest : startsMarked '\x00' rest = false) :
    linesFrom (l ++ lineFeed :: rest) = (l ++ [lineFeed]) :: linesFrom rest := by
  induction l with
  | nil =>
      rw [List.nil_append, linesFrom, if_pos ⟨rfl, hrest⟩]
      rfl
  | cons p l ih =>
      have hp : p ≠ lineFeed := fun h => hl (h ▸ List.mem_cons_self)
      have hrest := ih (fun h => hl (List.mem_cons_of_mem p h))
      rw [List.cons_append, linesFrom, if_neg (fun h => hp h.1), hrest, startLine]
      rfl

/-- No entry starts with the mark of a time. -/
theorem startsMarked_unlines {ls : List Content} (h : ∀ l ∈ ls, IsEntry l) :
    startsMarked '\x00' (unlines ls) = false := by
  cases ls with
  | nil => rfl
  | cons l ls =>
      have hl := h l (by simp)
      obtain ⟨p, l, rfl⟩ := List.exists_cons_of_ne_nil hl.ne_nil
      have hp : p ≠ .char '\x00' := fun h => hl.no_nul (h ▸ List.mem_cons_self)
      rw [unlines_cons]
      unfold startsMarked
      split
      · next c d r heq =>
          obtain ⟨rfl, -⟩ := List.cons.inj heq
          have hc : c ≠ '\x00' := fun h => hp (h ▸ rfl)
          simp [hc]
      · rfl

theorem linesFrom_unlines {ls : List Content} (h : ∀ l ∈ ls, IsEntry l) :
    linesFrom (unlines ls) = ls.map (· ++ [lineFeed]) := by
  induction ls with
  | nil => rfl
  | cons l ls ih =>
      have hls : ∀ m ∈ ls, IsEntry m := fun m hm => h m (by simp [hm])
      rw [unlines_cons, linesFrom_ended (h l (by simp)).not_ended (startsMarked_unlines hls),
        ih hls]
      rfl

theorem countedLines_unlines {ls : List Content} (h : ∀ l ∈ ls, IsEntry l) :
    countedLines (unlines ls) = ls.map (· ++ [lineFeed]) := by
  cases ls with
  | nil => rfl
  | cons l ls =>
      have hl := h l (by simp)
      have hls : ∀ m ∈ ls, IsEntry m := fun m hm => h m (by simp [hm])
      obtain ⟨p, l, rfl⟩ := List.exists_cons_of_ne_nil hl.ne_nil
      have hend : lineFeed ∉ l := fun h => hl.not_ended (List.mem_cons_of_mem p h)
      -- a line feed at the very start would end no line, but an entry is not empty
      rw [unlines_cons, List.cons_append, countedLines,
        linesFrom_ended hend (startsMarked_unlines hls), linesFrom_unlines hls]
      rfl

/-- **A file of entries is cut to its last ones.** -/
theorem cut_unlines (limit : ℕ) {ls : List Content} (h : ∀ l ∈ ls, IsEntry l) :
    cut limit (unlines ls) = unlines (ls.rtake limit) := by
  have hall : (ls.map (· ++ [lineFeed])).filter (fun l => l.getLast? = some lineFeed) =
      ls.map (· ++ [lineFeed]) := by
    rw [List.filter_eq_self]
    intro l hl
    obtain ⟨m, -, rfl⟩ := List.mem_map.mp hl
    simp
  rw [cut, surplus, countedLines_unlines h, hall, List.length_map, ← List.map_drop, List.rtake,
    unlines, List.flatMap_def]

/-- Of what is cut again and again the same is left as of the whole. -/
theorem rtake_append_rtake {α : Type} (n : ℕ) (xs ys : List α) :
    (xs.rtake n ++ ys).rtake n = (xs ++ ys).rtake n := by
  have hcut : xs.rtake n ++ ys = (xs ++ ys).drop (xs.length - n) := by
    rw [List.rtake, List.drop_append_of_le_length (by omega)]
  rw [hcut, List.rtake, List.rtake, List.drop_drop, List.length_drop, List.length_append]
  congr 1
  omega

/-! ## Saving -/

/-- What stands at the place of a history file: nothing, or a file of these entries. -/
structure Written (d : Disk) (p : Place) (lines : Option (List Content)) : Prop where
  entry : d.entry? p = lines.map fun ls => .file (unlines ls)
  entries : ∀ ls, lines = some ls → ∀ l ∈ ls, IsEntry l

/-- The lines of a history file after more entries have been saved. -/
def saveLines (lines : Option (List Content)) (more : List Content) : List Content :=
  (lines.getD [] ++ more).rtake fileLimit

/-- A history that is kept in the file at a place, under a name, and has nothing that is not
saved. -/
structure Tied (h : History) (d : Disk) (name : Text) (p : Place)
    (lines : Option (List Content)) : Prop where
  name_eq : h.name = name
  way : d.Leads h.name p
  copy : ∃ q, d.Leads (h.name ++ Disk.workingSuffix) q
  saved : h.saved = h.entries.length
  unwritten : lines = none → h.entries = []

section

variable {h : History} {d : Disk} {name : Text} {p : Place} {lines : Option (List Content)}

theorem Written.not_directory (hd : Written d p lines) : d.entry? p ≠ some .directory := by
  rw [hd.entry]
  cases lines <;> simp

theorem Written.isEntry_append (hd : Written d p lines) {more : List Content}
    (hmore : ∀ l ∈ more, IsEntry l) : ∀ l ∈ lines.getD [] ++ more, IsEntry l := by
  intro l hl
  rcases List.mem_append.mp hl with hold | hnew
  · cases lines with
    | none => cases hold
    | some ls => exact hd.entries ls rfl l hold
  · exact hmore l hnew

/-- A history that has read the file is tied to it. -/
theorem Tied.restore (hh : Tied h d name p lines) (hd : Written d p lines) :
    ∃ h', h.restore d = .ok h' ∧ Tied h' d name p lines ∧ h'.limit = some fileLimit := by
  have hfind := hh.way.find_eq
  rw [hd.entry] at hfind
  cases lines with
  | none =>
      refine ⟨{ h with saved := h.entries.length, limit := some fileLimit }, ?_, ?_, rfl⟩
      · rw [History.restore, hfind]
        rfl
      · exact ⟨hh.name_eq, hh.way, hh.copy, rfl, hh.unwritten⟩
  | some ls =>
      let entries := h.entries ++ entriesOf (unlines ls)
      refine ⟨{ h with entries, saved := entries.length, limit := some fileLimit }, ?_, ?_, rfl⟩
      · rw [History.restore, hfind]
        rfl
      · exact ⟨hh.name_eq, hh.way, hh.copy, rfl, by simp⟩

/-- **What saving does.** It adds to the file what has not been saved, which is all that there is as
long as there is no file, and cuts the file to its last lines. -/
theorem store_eq (hway : d.Leads h.name p) (hcopy : ∃ q, d.Leads (h.name ++ Disk.workingSuffix) q)
    (hd : Written d p lines) (hlimit : h.limit = some fileLimit) {more : List Content}
    (hmore : ∀ l ∈ more, IsEntry l) (hunsaved : h.entries.drop h.saved = more)
    (hunwritten : lines = none → h.entries = more) :
    h.store d =
      .ok ({ h with saved := h.entries.length }, d.put p (unlines (saveLines lines more))) := by
  let added := d.put p (unlines (lines.getD [] ++ more))
  have hadded :
      (d.has h.name = true ∧ d.append h.name (unlines (h.entries.drop h.saved)) = .ok added) ∨
        (d.has h.name = false ∧ d.create h.name (unlines h.entries) = .ok added) := by
    rw [hway.has_eq, hd.entry]
    cases lines with
    | none =>
        right
        rw [hway.create_eq, hunwritten rfl]
        exact ⟨rfl, rfl⟩
    | some ls =>
        left
        have hfile : d.entry? p = some (.file (unlines ls)) := hd.entry
        rw [hunsaved, hway.append_eq hfile, ← unlines_append]
        exact ⟨rfl, rfl⟩
  obtain ⟨q, hq⟩ := hcopy
  have hcut : added.modify h.name (cut fileLimit) = d.put p (unlines (saveLines lines more)) := by
    rw [(hway.put hd.not_directory _).modify_eq (hq.put hd.not_directory _)
      (Disk.entry_put_self _ _ _), Disk.put_put,
      cut_unlines fileLimit (hd.isEntry_append hmore)]
    rfl
  rcases hadded with ⟨hhas, hadded⟩ | ⟨hhas, hadded⟩
  · simp [store, hhas, hadded, hlimit, hcut, bind, Except.bind, pure, Except.pure]
  · simp [store, hhas, hadded, hlimit, hcut, bind, Except.bind, pure, Except.pure]

theorem Written.put {more : List Content} (hd : Written d p lines)
    (hmore : ∀ l ∈ more, IsEntry l) :
    Written (d.put p (unlines (saveLines lines more))) p (some (saveLines lines more)) := by
  refine ⟨Disk.entry_put_self _ _ _, ?_⟩
  intro ls hls l hl
  rw [← Option.some.inj hls] at hl
  exact hd.isEntry_append hmore l (List.mem_of_mem_drop hl)

/-- A history stays tied to the file when it is written. -/
theorem Tied.put (hh : Tied h d name p lines) (hd : Written d p lines) (c : Content)
    (ls : List Content) : Tied h (d.put p c) name p (some ls) := by
  obtain ⟨q, hq⟩ := hh.copy
  exact ⟨hh.name_eq, hh.way.put hd.not_directory c, ⟨q, hq.put hd.not_directory c⟩, hh.saved,
    by simp⟩

end

end MiniLisp.History
