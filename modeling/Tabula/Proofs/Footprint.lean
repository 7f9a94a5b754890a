import Tabula.Options
import Tabula.Proofs.Files
import Tabula.Proofs.Paths

/-!
# The footprint of a path

A file system that is written to under a path changes at the place that the path leads to and, if
directories are made, at places on the way there. Which places these are is told by the names of the
path alone, whatever is in the file system; so one change may follow another, and what all of them
together may do is what each of them may.

* `FileSystem.target`, `FileSystem.Above` — the place that a path leads to, and those above it.
* `FileSystem.Change` — what may become of an entry; `FileSystem.Spares` — what may become of a file
  system.
* `FileSystem.spares_write`, `FileSystem.spares_prepare` — writing a file does no more, nor does
  making the directories above it.
-/

namespace Tabula.FileSystem

variable {fs fs' fs'' : FileSystem} {o : Options} {p place : Place} {e e' e'' : Option Entry}
  {path directory : String} {contents : ByteArray} {parents : Bool}

/-! ### Places -/

/-- Where a path begins. -/
def origin (fs : FileSystem) (path : String) : Place :=
  if Path.isAbsolute path then [] else fs.working

/-- The place that a path leads to if it leads anywhere. -/
def target (fs : FileSystem) (path : String) : Place :=
  (Path.names path).foldl next (fs.origin path)

/-- The path goes through the place before it comes to its last name. -/
def Above (fs : FileSystem) (path : String) (p : Place) : Prop :=
  ∃ names, names <+: Path.names path ∧ names.length < (Path.names path).length ∧
    p = names.foldl next (fs.origin path)

/-- A walk that comes to an end has gone where its names lead, one by one. -/
theorem eq_foldl_of_walk {names : List String} {q : Place} (h : fs.walk p names = .ok q) :
    q = names.foldl next p := by
  induction names generalizing p with
  | nil => exact (Except.ok.inj h).symm
  | cons name names ih =>
    rw [walk] at h
    -- each step is refused or goes on from the next place
    split at h
    · cases h
    · split at h
      · cases h
      · exact ih h
    · cases h

/-- A path that leads somewhere leads to its target. -/
theorem eq_target_of_locate (h : fs.locate path = .ok p) : p = fs.target path := by
  rw [locate] at h
  split at h
  · cases h
  · split at h
    · cases h
    · split at h
      · cases h
      · exact eq_foldl_of_walk h

/-- The target is told by the path and the working directory alone. -/
theorem target_eq_of_working_eq (h : fs'.working = fs.working) :
    fs'.target path = fs.target path := by
  rw [target, target, origin, origin, h]

/-- The places above a path are told by the path and the working directory alone. -/
theorem above_iff_of_working_eq (h : fs'.working = fs.working) :
    fs'.Above path p ↔ fs.Above path p := by
  rw [Above, Above, origin, origin, h]

/-! ### Changes -/

/-- What may become of the entry at a place when something is written under a path: no entry is
removed, the only file that gets other contents is the one that the path leads to, and what is new
is this file or, if parents may be made, a directory above it. -/
inductive Change (fs : FileSystem) (parents : Bool) (path : String) (p : Place) :
    Option Entry → Option Entry → Prop where
  | kept (e : Option Entry) : Change fs parents path p e e
  | created (new : ByteArray) : p = fs.target path →
      Change fs parents path p none (some (.file new))
  | overwritten (old new : ByteArray) : p = fs.target path →
      Change fs parents path p (some (.file old)) (some (.file new))
  | made : parents = true → fs.Above path p → Change fs parents path p none (some .directory)

/-- Two changes of an entry, one after the other, are a change of the same kinds. -/
theorem Change.trans (h : Change fs parents path p e e') (h' : Change fs parents path p e' e'') :
    Change fs parents path p e e'' := by
  -- a case for each first change: a file that is there can only be overwritten again
  cases h with
  | kept => exact h'
  | created new hp =>
    cases h' with
    | kept => exact .created new hp
    | overwritten _ newer _ => exact .created newer hp
  | overwritten old new hp =>
    cases h' with
    | kept => exact .overwritten old new hp
    | overwritten _ newer _ => exact .overwritten old newer hp
  | made hparents habove =>
    -- a directory stays one
    cases h' with
    | kept => exact .made hparents habove

/-- A change is seen alike from file systems with one working directory. -/
theorem Change.of_working_eq (hw : fs'.working = fs.working) (h : Change fs' parents path p e e') :
    Change fs parents path p e e' := by
  cases h with
  | kept => exact .kept e
  | created new hp => exact .created new (hp.trans (target_eq_of_working_eq hw))
  | overwritten old new hp => exact .overwritten old new (hp.trans (target_eq_of_working_eq hw))
  | made hparents habove => exact .made hparents ((above_iff_of_working_eq hw).1 habove)

/-- What may become of a file system when something is written under a path. -/
structure Spares (fs : FileSystem) (parents : Bool) (path : String) (fs' : FileSystem) : Prop where
  working_eq : fs'.working = fs.working
  change : ∀ p, Change fs parents path p (fs.entry? p) (fs'.entry? p)

theorem Spares.refl (fs : FileSystem) : fs.Spares parents path fs := ⟨rfl, fun _ => .kept _⟩

/-- What two steps may do one after the other is what each of them may. -/
theorem Spares.trans (h : fs.Spares parents path fs') (h' : fs'.Spares parents path fs'') :
    fs.Spares parents path fs'' :=
  ⟨h'.working_eq.trans h.working_eq, fun p =>
    (h.change p).trans ((h'.change p).of_working_eq h.working_eq)⟩

/-- A device under the path has been there before. -/
theorem Spares.device_of_entryAt (h : fs.Spares parents path fs')
    (hdevice : fs'.entryAt path = .ok .fullDevice) :
    fs.entry? (fs.target path) = some .fullDevice := by
  have hentry : fs'.entry? (fs'.target path) = some .fullDevice := by
    rw [entryAt] at hdevice
    cases hplace : fs'.locate path with
    | error fault =>
      rw [hplace] at hdevice
      cases hdevice
    | ok place =>
      rw [hplace] at hdevice
      dsimp only [bind, Except.bind] at hdevice
      rw [← eq_target_of_locate hplace]
      split at hdevice
      · cases hdevice
      · split at hdevice
        · cases hdevice
        · cases hdevice
      · next e _ hfound => rw [hfound, Except.ok.inj hdevice]
  -- no step makes a device, so one that is found was there before
  have hchange := h.change (fs.target path)
  rw [← target_eq_of_working_eq h.working_eq, hentry] at hchange
  rw [← target_eq_of_working_eq h.working_eq]
  -- what is new is a file or a directory
  generalize fs.entry? (fs'.target path) = before at hchange
  cases hchange
  rfl

/-- A single entry that is put at a place may change only as the entry there may. -/
theorem spares_put {e : Entry} (hroot : place ≠ [])
    (h : Change fs parents path place (fs.entry? place) (some e)) :
    fs.Spares parents path (fs.put place e) := by
  refine ⟨rfl, fun p => ?_⟩
  rw [entry?_put hroot]
  by_cases hp : p = place
  · rw [if_pos hp, hp]
    exact h
  · rw [if_neg hp]
    exact .kept _

/-! ### Writing and making directories -/

/-- Writing a file touches its target and nothing else. -/
theorem spares_write (h : fs.write path contents = .ok fs') : fs.Spares parents path fs' := by
  obtain ⟨place, hplace, ⟨-, -, rfl⟩ | ⟨hfree, -, rfl⟩⟩ := write_cases h
  · -- a device accepts no contents, so there were none
    exact .refl _
  · refine spares_put hfree.ne_root ?_
    have htarget := eq_target_of_locate hplace
    -- the place was empty or held a file
    obtain hnone | ⟨old, hold⟩ := hfree
    · rw [hnone]
      exact .created contents htarget
    · rw [hold]
      exact .overwritten old contents htarget

/-- The text of a path above another one. -/
structure Leads (directory path : String) : Prop where
  isAbsolute_eq : Path.isAbsolute directory = Path.isAbsolute path
  isFront : Path.names directory <+: Path.names path
  length_lt : (Path.names directory).length < (Path.names path).length

/-- A directory that a path leads through is above its target. -/
theorem Leads.above (h : Leads directory path) : fs.Above path (fs.target directory) := by
  refine ⟨Path.names directory, h.isFront, h.length_lt, ?_⟩
  rw [target, origin, origin, h.isAbsolute_eq]

/-- The path leads through all directories that are made for it. -/
theorem leads_of_mem_ancestors {parent : String} (hparent : Path.parent? path = some parent)
    (h : directory ∈ Path.ancestors parent) : Leads directory path := by
  obtain ⟨habsolute, hfront, hlength⟩ := Path.names_parent hparent
  obtain ⟨habsolute', hfront'⟩ := Path.names_of_mem_ancestors h
  exact ⟨habsolute'.trans habsolute, hfront'.trans hfront, hfront'.length_le.trans_lt hlength⟩

/-- Making one of these directories is a change above the target. -/
theorem spares_makeDirectory (hdirectory : Leads directory path)
    (h : fs.makeDirectory directory = .ok fs') : fs.Spares true path fs' := by
  rw [makeDirectory] at h
  cases hplace : fs.locate directory with
  | error fault =>
    rw [hplace] at h
    cases h
  | ok place =>
    rw [hplace] at h
    dsimp only [bind, Except.bind] at h
    split at h
    · cases h
    · next hnone =>
      obtain rfl := Except.ok.inj h
      obtain rfl := eq_target_of_locate hplace
      -- the root has always been there
      have hroot : fs.target directory ≠ [] := by
        intro hroot
        rw [hroot, entry?_nil] at hnone
        cases hnone
      refine spares_put hroot ?_
      rw [hnone]
      exact .made rfl hdirectory.above

/-- However far the directories are made, each that is new is above the path. -/
theorem spares_makeDirectoriesAlong {directories : List String}
    (h : ∀ directory ∈ directories, Leads directory path) (fs : FileSystem) :
    fs.Spares true path (makeDirectoriesAlong directories fs).1 := by
  induction directories with
  | nil => exact .refl fs
  | cons directory directories ih =>
    obtain ⟨hdirectory, hdirectories⟩ := List.forall_mem_cons.1 h
    rw [makeDirectoriesAlong]
    split
    · exact .refl fs
    · split
      · next made hmade => exact spares_makeDirectory hdirectory hmade
      · -- the parents come first, and what they leave is where the directory is tried again
        have habove := ih hdirectories
        split
        · next above fault hmade =>
          rw [hmade] at habove
          exact habove
        · next above hmade =>
          rw [hmade] at habove
          split
          · next made hagain => exact habove.trans (spares_makeDirectory hdirectory hagain)
          · exact habove
      · exact .refl fs

/-- The file system with the directories above a path, if these are to be made. -/
def prepare (fs : FileSystem) (o : Options) (path : String) :
    FileSystem × Except SystemFault Unit :=
  if o.createsParents then
    match Path.parent? path with
    | none | some "" => (fs, .ok ())
    | some parent => fs.makeDirectories parent
  else (fs, .ok ())

/-- There are directories to be made if the path has a parent that is not empty. -/
theorem prepare_of_createsParents (h : o.createsParents = true) (fs : FileSystem) (path : String) :
    ((Path.parent? path = none ∨ Path.parent? path = some "") → fs.prepare o path = (fs, .ok ())) ∧
      ∀ parent, Path.parent? path = some parent → parent ≠ "" →
        fs.prepare o path = fs.makeDirectories parent := by
  rw [prepare, if_pos h]
  refine ⟨?_, fun parent hparent hne => ?_⟩
  · rintro (hnone | hempty)
    · rw [hnone]
    · rw [hempty]
      rfl
  · rw [hparent]
    split
    · next hnone => cases hnone
    · next hempty => exact absurd (Option.some.inj hempty) hne
    · next hsome => rw [Option.some.inj hsome]

/-- Preparing for a path touches nothing but places above its target, and these only if directories
are to be made. -/
theorem spares_prepare (fs : FileSystem) (o : Options) (path : String) :
    fs.Spares o.createsParents path (fs.prepare o path).1 := by
  rw [prepare]
  split
  · next hparents =>
    rw [hparents]
    split
    · exact .refl fs
    · exact .refl fs
    · next parent _ hparent =>
      -- every directory that is made is one the path leads through
      exact spares_makeDirectoriesAlong (fun _ hd => leads_of_mem_ancestors hparent hd) fs
  · exact .refl fs

end Tabula.FileSystem
