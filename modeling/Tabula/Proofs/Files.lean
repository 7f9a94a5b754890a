import Mathlib.Data.List.Basic
import Tabula.Files.FileSystem

/-!
# Files that are written

Writing changes the entry at one place. A path is walked through directories only, and a directory
is never written over, so every path that led somewhere still leads there afterwards; what was
written is therefore found under the path that it was written to.

* `FileSystem.entry?_put`, `FileSystem.locate_put` — a new entry at one place leaves the others, and
  the places that paths lead to.
* `FileSystem.write_cases` — all that writing can do.
* `FileSystem.Takes` — whether a file can be written to a path, and `Takes.exists_write` — it is
  found there afterwards.
-/

namespace Tabula.FileSystem

variable {fs fs' : FileSystem} {p place : Place} {e : Entry} {path : String} {contents : ByteArray}

theorem entry?_nil : fs.entry? [] = some .directory := if_pos rfl

/-- A new entry is found at its place, and every other place is as it was. -/
theorem entry?_put (h : place ≠ []) :
    FileSystem.entry? (fs.put place e) p = if p = place then some e else fs.entry? p := by
  by_cases hp : p = []
  · subst hp
    rw [entry?_nil, if_neg (Ne.symm h), entry?_nil]
  · unfold entry?
    rw [if_neg hp, if_neg hp]
    show ((place, e) :: fs.entries).lookup p = _
    rw [List.lookup_cons]
    -- the newest entry of a place is looked at first
    by_cases hplace : p = place
    · rw [if_pos hplace, hplace, beq_self_eq_true]
    · rw [if_neg hplace, beq_eq_false_iff_ne.2 hplace]

/-- No directory is at the place of the new entry, so it was on no way before. -/
theorem walk_put (hplace : fs.entry? place ≠ some .directory) {names : List String} {q : Place}
    (h : fs.walk p names = .ok q) : (fs.put place e).walk p names = .ok q := by
  have hroot : place ≠ [] := by
    rintro rfl
    exact hplace entry?_nil
  -- every place that is left on the way is a directory, and so is not the place of the entry
  induction names generalizing p with
  | nil => exact h
  | cons name names ih =>
    rw [walk] at h
    cases hentry : fs.entry? p with
    | none =>
      rw [hentry] at h
      cases h
    | some found =>
      rw [hentry] at h
      cases found with
      | file contents => cases h
      | fullDevice => cases h
      | directory =>
        have hne : p ≠ place := by
          rintro rfl
          exact hplace hentry
        rw [walk, entry?_put hroot, if_neg hne, hentry]
        dsimp only at h ⊢
        split at h
        · cases h
        · next hshort =>
          rw [if_neg hshort]
          exact ih h

/-- A path that led somewhere still does after an entry was put where no directory stood. -/
theorem locate_put (hplace : fs.entry? place ≠ some .directory) {q : Place}
    (h : fs.locate path = .ok q) : (fs.put place e).locate path = .ok q := by
  rw [locate] at h ⊢
  -- the checks of the text do not look at the files
  split at h
  · cases h
  · next hnul =>
    split at h
    · cases h
    · next hempty =>
      split at h
      · cases h
      · next hlong =>
        rw [if_neg hnul, if_neg hempty, if_neg hlong]
        exact walk_put hplace h

/-- A path that is not refused for its text is walked from the root or from the working
directory. -/
theorem locate_eq_walk (hnul : path.contains '\x00' = false) (hempty : path ≠ "")
    (hshort : path.utf8ByteSize < 4096) : fs.locate path =
      fs.walk (if Path.isAbsolute path then [] else fs.working) (Path.names path) := by
  rw [locate, hnul, if_neg Bool.false_ne_true, if_neg hempty, if_neg (Nat.not_le.2 hshort)]

/-- A file is at the place, or nothing. -/
def IsFree (fs : FileSystem) (place : Place) : Prop :=
  fs.entry? place = none ∨ ∃ old, fs.entry? place = some (.file old)

/-- Where a file can be put, there is no directory. -/
theorem IsFree.ne_directory (h : fs.IsFree place) : fs.entry? place ≠ some .directory := by
  obtain h | ⟨old, h⟩ := h
  · rw [h]
    nofun
  · rw [h]
    nofun

/-- At a free place the file is put, unless the path asks for a directory. -/
theorem write_of_isFree (hplace : fs.locate path = .ok place) (hfree : fs.IsFree place) :
    fs.write path contents = if Path.asksDirectory path then throw .isDirectory
      else return fs.put place (.file contents) := by
  rw [write, hplace]
  dsimp only [bind, Except.bind]
  obtain h | ⟨old, h⟩ := hfree
  · rw [h]
  · rw [h]

/-- All that writing can do: a device takes nothing, and at a free place there is the file. -/
theorem write_cases (h : fs.write path contents = .ok fs') : ∃ place, fs.locate path = .ok place ∧
    ((contents.isEmpty = true ∧ fs.entry? place = some .fullDevice ∧ fs' = fs) ∨
      (fs.IsFree place ∧ Path.asksDirectory path = false ∧
        fs' = fs.put place (.file contents))) := by
  cases hplace : fs.locate path with
  | error fault =>
    rw [write, hplace] at h
    cases h
  | ok place =>
    refine ⟨place, rfl, ?_⟩
    have hput : fs.IsFree place → Path.asksDirectory path = false ∧
        fs' = fs.put place (.file contents) := by
      intro hfree
      rw [write_of_isFree hplace hfree] at h
      split at h
      · cases h
      · next hasks => exact ⟨Bool.eq_false_iff.2 hasks, (Except.ok.inj h).symm⟩
    -- nothing, a file, a directory or the device may be at the place
    cases hentry : fs.entry? place with
    | none => exact .inr ⟨.inl hentry, hput (.inl hentry)⟩
    | some e =>
      cases e with
      | file old => exact .inr ⟨.inr ⟨old, hentry⟩, hput (.inr ⟨old, hentry⟩)⟩
      | directory =>
        rw [write, hplace] at h
        dsimp only [bind, Except.bind] at h
        rw [hentry] at h
        cases h
      | fullDevice =>
        rw [write, hplace] at h
        dsimp only [bind, Except.bind] at h
        rw [hentry] at h
        dsimp only at h
        split at h
        · next hempty => exact .inl ⟨hempty, rfl, (Except.ok.inj h).symm⟩
        · cases h

theorem IsFree.ne_root (h : fs.IsFree place) : place ≠ [] := by
  rintro rfl
  exact h.ne_directory entry?_nil

/-- A file that was put where a path leads to is found under the path. -/
theorem entryAt_put (hplace : fs.locate path = .ok place) (hfree : fs.IsFree place)
    (hasks : Path.asksDirectory path = false) :
    (fs.put place (.file contents)).entryAt path = .ok (.file contents) := by
  have hfound : FileSystem.entry? (fs.put place (.file contents)) place =
      some (.file contents) := by
    rw [entry?_put hfree.ne_root, if_pos rfl]
  -- the path still leads to the place, and there the file is found
  rw [entryAt, locate_put hfree.ne_directory hplace]
  dsimp only [bind, Except.bind]
  rw [hfound]
  dsimp only
  rw [hasks]
  rfl

/-- Whatever was written is found under the path that it was written to, unless this is the path of
a device. -/
theorem entryAt_of_write (h : fs.write path contents = .ok fs') :
    fs'.entryAt path = .ok (.file contents) ∨ fs'.entryAt path = .ok .fullDevice := by
  obtain ⟨place, hplace, ⟨-, hdevice, rfl⟩ | ⟨hfree, hasks, rfl⟩⟩ := write_cases h
  · right
    rw [entryAt, hplace]
    dsimp only [bind, Except.bind]
    rw [hdevice]
    rfl
  · exact .inl (entryAt_put hplace hfree hasks)

/-- A file can be written to the path. -/
def Takes (fs : FileSystem) (path : String) : Prop :=
  Path.asksDirectory path = false ∧ ∃ place, fs.locate path = .ok place ∧ fs.IsFree place

/-- Whatever is written is found under the path that it was written to, and can be written over. -/
theorem Takes.exists_write (h : fs.Takes path) (contents : ByteArray) :
    ∃ fs', fs.write path contents = .ok fs' ∧ fs'.Takes path ∧
      fs'.entryAt path = .ok (.file contents) := by
  obtain ⟨hasks, place, hplace, hfree⟩ := h
  refine ⟨fs.put place (.file contents), ?_, ⟨hasks, place, ?_, .inr ⟨contents, ?_⟩⟩, ?_⟩
  · rw [write_of_isFree hplace hfree, hasks]
    rfl
  · exact locate_put hfree.ne_directory hplace
  · rw [entry?_put hfree.ne_root, if_pos rfl]
  · exact entryAt_put hplace hfree hasks

/-- The paths that files can be written to are those that take all contents. -/
theorem takes_iff : fs.Takes path ↔ ∀ contents, ∃ fs', fs.write path contents = .ok fs' := by
  refine ⟨fun h contents => ?_, fun h => ?_⟩
  · obtain ⟨fs', hwrite, -⟩ := h.exists_write contents
    exact ⟨fs', hwrite⟩
  · -- a device would not take a single byte
    obtain ⟨fs', hwrite⟩ := h ⟨#[0]⟩
    obtain ⟨place, hplace, ⟨hempty, -⟩ | ⟨hfree, hasks, -⟩⟩ := write_cases hwrite
    · cases hempty
    · exact ⟨hasks, place, hplace, hfree⟩

end Tabula.FileSystem
