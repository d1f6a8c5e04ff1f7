import LongMode.CommandLine.Files
import LongMode.Proofs.Except
import Mathlib.Tactic
/-!
A file that is written is read back as it was written, under the same path, and everything at another
place stays. A file never takes the place of a directory, so the way to it is still there afterwards.
-/

namespace LongMode.CommandLine

theorem lookup_others {β : Type} (p : Place) (entries : List (Place × β)) {q : Place} (h : q ≠ p) :
    (entries.filter (·.1 != p)).lookup q = entries.lookup q := by
  induction entries with
  | nil => rfl
  | cons entry rest ih =>
    by_cases hp : entry.1 = p
    · have hq : (q == entry.1) = false := by
        rw [hp]
        exact beq_false_of_ne h
      rw [List.filter_cons_of_neg (by simp [hp]), List.lookup_cons, hq]
      exact ih
    · rw [List.filter_cons_of_pos (by simpa using hp), List.lookup_cons, List.lookup_cons, ih]

namespace Files

variable {files after : Files} {path : Path} {bytes : List UInt8} {p q : Place} {e : Entry}

def put (files : Files) (p : Place) (bytes : List UInt8) : Files :=
  ⟨(p, .file bytes) :: files.entries.filter (·.1 != p)⟩

theorem at?_put (files : Files) (p : Place) (bytes : List UInt8) :
    (files.put p bytes).at? p = some (.file bytes) := by
  unfold at? put
  rw [List.lookup_cons, beq_self_eq_true]

/-- What lies at another place is still there. A directory that was there for the old file's sake is
there for the new one's. -/
theorem at?_put_of_ne (h : q ≠ p) (hq : files.at? q = some e) :
    (files.put p bytes).at? q = some e := by
  unfold at? at hq ⊢
  have hlookup : (files.put p bytes).entries.lookup q = files.entries.lookup q := by
    have hne : (q == p) = false := beq_false_of_ne h
    rw [put, List.lookup_cons, hne]
    exact lookup_others p files.entries h
  rw [hlookup]
  cases hl : files.entries.lookup q with
  | some entry =>
    rw [hl] at hq
    exact hq
  | none =>
    rw [hl] at hq
    dsimp only at hq ⊢
    split_ifs at hq with hdir
    rw [← hq, if_pos]
    rw [Bool.or_eq_true, List.any_eq_true] at hdir ⊢
    rcases hdir with hroot | ⟨entry, hmem, hin⟩
    · left
      exact hroot
    · right
      by_cases hp : entry.1 = p
      · refine ⟨(p, .file bytes), List.mem_cons_self, ?_⟩
        rw [← hp]
        exact hin
      · refine ⟨entry, List.mem_cons_of_mem _ (List.mem_filter.2 ⟨hmem, ?_⟩), hin⟩
        simpa using hp

theorem walk_put (hp : files.at? p ≠ some .directory) (names : List String) {start stop : Place}
    (h : files.walk start names = .ok stop) : (files.put p bytes).walk start names = .ok stop := by
  induction names generalizing start with
  | nil => exact h
  | cons name rest ih =>
    rcases ok_of_bind h with ⟨next, hnext, hrest⟩
    cases hat : files.at? next with
    | none =>
      rw [hat] at hrest
      cases hrest
    | some entry =>
      rw [hat] at hrest
      cases entry with
      | file _ => cases hrest
      | directory =>
        have hne : next ≠ p := by
          rintro rfl
          exact hp hat
        unfold walk
        rw [hnext, ok_bind, at?_put_of_ne hne hat]
        exact ih hrest

theorem directory_put (hp : files.at? p ≠ some .directory) {d : Place}
    (h : files.directory path = .ok d) : (files.put p bytes).directory path = .ok d := by
  unfold directory at h ⊢
  split_ifs at h ⊢
  exact walk_put hp _ h

/-- What a path must be like for a file to be written there. -/
theorem target_ok (h : files.target path = .ok p) : ∃ d name, files.directory path = .ok d ∧
    path.names.getLast? = some name ∧ path.slashed = false ∧ enter d name = .ok p ∧
    files.at? p ≠ some .directory := by
  rcases ok_of_bind h with ⟨d, hd, hrest⟩
  cases hname : path.names.getLast? with
  | none =>
    rw [hname] at hrest
    cases hrest
  | some name =>
    rw [hname] at hrest
    dsimp only at hrest
    split_ifs at hrest with hslash
    rcases ok_of_bind hrest with ⟨q, hq, hlast⟩
    split_ifs at hlast with hdir
    cases hlast
    exact ⟨d, name, hd, rfl, by simpa using hslash, hq, hdir⟩

theorem write_of_target (h : files.target path = .ok p) (bytes : List UInt8) :
    files.write path bytes = .ok (files.put p bytes) := by
  unfold write
  rw [h]
  rfl

theorem read_put (h : files.target path = .ok p) (bytes : List UInt8) :
    (files.put p bytes).read path = .ok bytes := by
  rcases target_ok h with ⟨d, name, hd, hname, hslash, henter, hfree⟩
  unfold read
  rw [directory_put hfree hd, ok_bind, hname]
  dsimp only
  rw [henter, ok_bind, at?_put]
  dsimp only
  rw [hslash]
  rfl

/-- A file that was written holds what was written. -/
theorem read_write (h : files.write path bytes = .ok after) : after.read path = .ok bytes := by
  rcases ok_of_bind h with ⟨p, hp, hafter⟩
  cases hafter
  exact read_put hp bytes

end Files

end LongMode.CommandLine
