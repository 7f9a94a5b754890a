import Tabula.Proofs.Footprint
import Tabula.Proofs.Numbering

/-!
# What saving and loading come to

Saving a table and loading one are sequences of steps, each of which may be the last one: the
options, the directories, the file, its contents, the table. Where a sequence ends decides what is
reported and what has become of the files, and this is told here once for each of the two.

* `Table.Saves`, `Table.Loads` — how saving and loading may end, with what has led there.
* `Instance.save_saves`, `Instance.load_loads` — they end in one of these ways.
* `Table.Loads.cases_of_entry` — once the file is open, its reading and the table in it decide.
* `Table.Saves.spares`, `Table.Saves.entry_of_ok` — what saving leaves of the files.
* `Instance.touches_only_target` — all that the two do to the files.
-/

namespace Tabula

variable {t : Table} {i : Instance} {s : Session} {o : Options} {format : FileFormat}
  {path : String} {contents : ByteArray} {text : List Char} {fault : OptionsFault}

/-! ### The steps -/

namespace Action

theorem run_get : (get : Action Session).run.run s = (.ok s, s) := rfl

theorem run_ofResult {α : Type} (x : Except Error α) (s : Session) :
    (ofResult x).run.run s = (x, s) := rfl

theorem run_checkOptions (o : Options) (s : Session) :
    (checkOptions o).run.run s = (o.check.mapError .invalidOptions, s) := rfl

/-- Making the directories above a file is making them in the file system, and telling of it. -/
theorem exists_run_ensureParents (format : FileFormat) (path : String)
    (hparents : o.createsParents = true) (s : Session) :
    ∃ events, (ensureParents format path).run.run s =
      ((s.files.prepare o path).2.mapError fun fault => .file .write format path (.system fault),
        { s with files := (s.files.prepare o path).1, events := events }) := by
  have hprepare := FileSystem.prepare_of_createsParents hparents s.files path
  unfold ensureParents
  -- the parent is looked at in the same way by both, and events are the only difference
  split
  · next hnone =>
    rw [hprepare.1 (.inl hnone)]
    exact ⟨s.events, rfl⟩
  · next hempty =>
    rw [hprepare.1 (.inr hempty)]
    exact ⟨s.events, rfl⟩
  · next parent hne hparent =>
    rw [hprepare.2 parent hparent hne, run_bind, run_get]
    dsimp only
    generalize s.files.makeDirectories parent = made
    obtain ⟨files, fault | u⟩ := made
    · exact ⟨s.events, rfl⟩
    · exact ⟨_, rfl⟩

/-- Writing a file changes the files, or reports that the file could not be written. -/
theorem run_writeFile (format : FileFormat) (path : String) (contents : ByteArray) (s : Session) :
    (∃ files, s.files.write path contents = .ok files ∧
      (writeFile format path contents).run.run s = (.ok (), { s with files := files })) ∨
    ∃ fault reported, s.files.write path contents = .error fault ∧
      (writeFile format path contents).run.run s =
        (.error (.file .write format path reported), s) := by
  rw [writeFile, run_bind, run_get]
  dsimp only
  -- the contents are written, or nothing is changed
  cases s.files.write path contents with
  | ok files => exact .inl ⟨files, rfl, rfl⟩
  | error fault => cases fault <;> exact .inr ⟨_, _, rfl, rfl⟩

end Action

/-! ### Saving -/

/-- How saving a table may end, with the files that it leaves. -/
inductive Table.Saves (t : Table) (format : FileFormat) (o : Options) (path : String)
    (fs : FileSystem) : Except Error Unit → FileSystem → Prop where
  | invalid {fault : OptionsFault} : o.check = .error fault →
      Saves t format o path fs (.error (.invalidOptions fault)) fs
  | unprepared {files : FileSystem} {fault : SystemFault} : o.check = .ok () →
      fs.prepare o path = (files, .error fault) →
      Saves t format o path fs (.error (.file .write format path (.system fault))) files
  | uncreated {files : FileSystem} {fault : SystemFault} (reported : FileFault) :
      o.check = .ok () → fs.prepare o path = (files, .ok ()) →
      files.write path .empty = .error fault →
      Saves t format o path fs (.error (.file .write format path reported)) files
  | undocumented {files created : FileSystem} {cause : Error} : o.check = .ok () →
      fs.prepare o path = (files, .ok ()) → files.write path .empty = .ok created →
      t.document format o = .error cause →
      Saves t format o path fs (.error (.fileTable .write format path cause)) created
  | unwritten {files created : FileSystem} {text : List Char} {fault : SystemFault}
      (reported : FileFault) : o.check = .ok () → fs.prepare o path = (files, .ok ()) →
      files.write path .empty = .ok created → t.document format o = .ok text →
      created.write path (String.ofList text).toUTF8 = .error fault →
      Saves t format o path fs (.error (.file .write format path reported)) created
  | saved {files created written : FileSystem} {text : List Char} : o.check = .ok () →
      fs.prepare o path = (files, .ok ()) → files.write path .empty = .ok created →
      t.document format o = .ok text →
      created.write path (String.ofList text).toUTF8 = .ok written →
      Saves t format o path fs (.ok ()) written

namespace Instance

/-- What saving does once the directories are there. -/
def fill (i : Instance) (format : FileFormat) (o : Options) (path : String) : Action Unit := do
  Action.createFile format path
  let text ← Action.ofResult ((i.table.document format o).mapError (.fileTable .write format path))
  Action.writeFile format path (String.ofList text).toUTF8
  Action.log .info ("Table saved: " ++ path)

/-- Creating the file and filling it ends in one of the ways in which saving may end. -/
theorem fill_saves {fs : FileSystem} (ho : o.check = .ok ())
    (hprepare : fs.prepare o path = (s.files, .ok ())) :
    i.table.Saves format o path fs ((i.fill format o path).run.run s).1
      ((i.fill format o path).run.run s).2.files := by
  rw [fill, Action.createFile, run_bind]
  -- the file is created empty, then the document is made, and then it is written
  obtain ⟨created, hcreate, hrun⟩ | ⟨fault, reported, hcreate, hrun⟩ :=
    Action.run_writeFile format path .empty s
  · rw [hrun]
    dsimp only
    rw [run_bind, Action.run_ofResult]
    cases hdocument : i.table.document format o with
    | error cause => exact .undocumented ho hprepare hcreate hdocument
    | ok text =>
      dsimp only [Except.mapError]
      rw [run_bind]
      obtain ⟨written, hwrite, hrun⟩ | ⟨fault, reported, hwrite, hrun⟩ :=
        Action.run_writeFile format path (String.ofList text).toUTF8 { s with files := created }
      · rw [hrun]
        exact .saved ho hprepare hcreate hdocument hwrite
      · rw [hrun]
        exact .unwritten reported ho hprepare hcreate hdocument hwrite
  · rw [hrun]
    exact .uncreated reported ho hprepare hcreate

/-- Invalid options end everything at once. -/
theorem save_run_of_invalid (ho : o.check = .error fault) :
    (i.save format o path).run.run s = (.error (.invalidOptions fault), s) := by
  rw [save, run_bind, Action.run_checkOptions, ho]
  rfl

/-- Saving ends in one of the ways of `Table.Saves`. -/
theorem save_saves (i : Instance) (format : FileFormat) (o : Options) (path : String)
    (s : Session) : i.table.Saves format o path s.files ((i.save format o path).run.run s).1
      ((i.save format o path).run.run s).2.files := by
  cases ho : o.check with
  | error fault =>
    rw [save_run_of_invalid ho]
    exact .invalid ho
  | ok u =>
    rw [save, run_bind, Action.run_checkOptions, ho]
    dsimp only [Except.mapError]
    cases hparents : o.createsParents with
    | false =>
      -- the files are found as they were
      have hprepare : s.files.prepare o path = (s.files, .ok ()) := by
        rw [FileSystem.prepare, hparents]
        rfl
      exact fill_saves ho hprepare
    | true =>
      obtain ⟨events, hrun⟩ := Action.exists_run_ensureParents format path hparents s
      rw [if_pos rfl, run_bind, hrun]
      cases hprepare : s.files.prepare o path with
      | mk files made =>
        cases made with
        | error fault => exact .unprepared ho hprepare
        | ok u =>
          exact fill_saves (s := { s with files := files, events := events }) ho hprepare

end Instance

/-! ### Loading -/

/-- How loading a table may end. -/
inductive Table.Loads (format : FileFormat) (o : Options) (path : String) (fs : FileSystem) :
    Except Interruption Table → Prop where
  | invalid {fault : OptionsFault} : o.check = .error fault →
      Loads format o path fs (.error (.failure (.invalidOptions fault)))
  | missing : o.check = .ok () → fs.entryAt path = .error .notFound →
      Loads format o path fs (.error (.failure (.fileNotFound path)))
  | unopened {fault : SystemFault} : o.check = .ok () → fs.entryAt path = .error fault →
      fault ≠ .notFound →
      Loads format o path fs (.error (.failure (.file .read format path (.system fault))))
  | aborted {e : Entry} : o.check = .ok () → fs.entryAt path = .ok e →
      Reading.ofEntry format o e = .abort → Loads format o path fs (.error .abort)
  | unreadable {e : Entry} (reported : FileFault) : o.check = .ok () → fs.entryAt path = .ok e →
      Reading.ofEntry format o e = .refused →
      Loads format o path fs (.error (.failure (.file .read format path reported)))
  | refused {e : Entry} {f : Frame} {cause : Error} : o.check = .ok () →
      fs.entryAt path = .ok e → Reading.ofEntry format o e = .frame f →
      Table.ofFrame f = .error cause →
      Loads format o path fs (.error (.failure (.fileTable .read format path cause)))
  | loaded {e : Entry} {f : Frame} {t : Table} : o.check = .ok () → fs.entryAt path = .ok e →
      Reading.ofEntry format o e = .frame f → Table.ofFrame f = .ok t →
      Loads format o path fs (.ok t)

/-- Once the options are valid and a file is under the path, the loading ends as the reading of that
file ends, or with what a table makes of the frame that was read. -/
theorem Table.Loads.cases_of_entry {fs : FileSystem} {r : Except Interruption Table} {e : Entry}
    (h : Table.Loads format o path fs r) (ho : o.check = .ok ())
    (hentry : fs.entryAt path = .ok e) :
    (Reading.ofEntry format o e = .abort ∧ r = .error .abort) ∨
      (Reading.ofEntry format o e = .refused ∧
        ∃ reported, r = .error (.failure (.file .read format path reported))) ∨
      ∃ f, Reading.ofEntry format o e = .frame f ∧
        r = (Table.ofFrame f).mapError fun cause =>
          .failure (.fileTable .read format path cause) := by
  -- the options and the entry rule out the first three ends, and the others are about this entry
  cases h with
  | invalid ho' => cases ho.symm.trans ho'
  | missing _ hentry' => cases hentry.symm.trans hentry'
  | unopened _ hentry' _ => cases hentry.symm.trans hentry'
  | aborted _ hentry' hread =>
    cases hentry.symm.trans hentry'
    exact .inl ⟨hread, rfl⟩
  | unreadable reported _ hentry' hread =>
    cases hentry.symm.trans hentry'
    exact .inr (.inl ⟨hread, reported, rfl⟩)
  | refused _ hentry' hread ht =>
    cases hentry.symm.trans hentry'
    exact .inr (.inr ⟨_, hread, by rw [ht]; rfl⟩)
  | loaded _ hentry' hread ht =>
    cases hentry.symm.trans hentry'
    exact .inr (.inr ⟨_, hread, by rw [ht]; rfl⟩)

/-- Once a frame has been read from the file, what comes of the loading is what a table makes of the
frame. -/
theorem Table.Loads.eq_of_read {fs : FileSystem} {r : Except Interruption Table} {e : Entry}
    {f : Frame} (h : Table.Loads format o path fs r) (ho : o.check = .ok ())
    (hentry : fs.entryAt path = .ok e) (hread : Reading.ofEntry format o e = .frame f) :
    r = (Table.ofFrame f).mapError fun cause => .failure (.fileTable .read format path cause) := by
  obtain ⟨hread', -⟩ | ⟨hread', -⟩ | ⟨f', hread', hr⟩ := h.cases_of_entry ho hentry
  · cases hread.symm.trans hread'
  · cases hread.symm.trans hread'
  · cases hread.symm.trans hread'
    exact hr

/-- What stands under the path is looked up, and nothing else is done. -/
theorem Action.run_openFile (format : FileFormat) (path : String) (s : Session) :
    (openFile format path).run.run s = (match s.files.entryAt path with
      | .ok e => .ok e
      | .error .notFound => .error (.fileNotFound path)
      | .error fault => .error (.file .read format path (.system fault)), s) := by
  rw [openFile, run_bind, run_get]
  dsimp only
  cases s.files.entryAt path with
  | ok e => rfl
  | error fault => cases fault <;> rfl

/-- Loading ends in one of the ways of `Table.Loads`, and leaves the files alone. -/
theorem Instance.load_loads (format : FileFormat) (o : Options) (path : String) (s : Session) :
    Table.Loads format o path s.files (((load format o path).run.run s).1.map Instance.table) ∧
      ((load format o path).run.run s).2.files = s.files := by
  rw [load, run_bind, Attempt.run_lift, Action.run_checkOptions]
  cases ho : o.check with
  | error fault => exact ⟨.invalid ho, rfl⟩
  | ok u =>
    dsimp only [Except.mapError]
    rw [run_bind, Attempt.run_lift, Action.run_openFile]
    cases hentry : s.files.entryAt path with
    | error fault =>
      -- of all faults only this one has an error of its own
      by_cases hfault : fault = .notFound
      · subst hfault
        exact ⟨.missing ho hentry, rfl⟩
      · have hreport : (match (Except.error fault : Except SystemFault Entry) with
            | .ok e => .ok e
            | .error .notFound => .error (.fileNotFound path)
            | .error fault => .error (.file .read format path (.system fault))) =
              (Except.error (.file .read format path (.system fault)) : Except Error Entry) := by
          cases fault <;> first | rfl | exact absurd rfl hfault
        rw [hreport]
        exact ⟨.unopened ho hentry hfault, rfl⟩
    | ok e =>
      -- what the file holds is read, refused, or takes the program down
      dsimp only [Except.mapError]
      cases hread : Reading.ofEntry format o e with
      | abort => exact ⟨.aborted ho hentry hread, rfl⟩
      | refused => exact ⟨.unreadable _ ho hentry hread, rfl⟩
      | frame f =>
        dsimp only
        rw [Attempt.run_lift, ofRead, run_bind, Action.run_forM_log]
        dsimp only
        rw [run_bind, Action.run_ofResult]
        cases ht : Table.ofFrame f with
        | error cause => exact ⟨.refused ho hentry hread ht, rfl⟩
        | ok t => exact ⟨.loaded ho hentry hread ht, rfl⟩

/-! ### What becomes of the files -/

namespace Table.Saves

variable {fs files : FileSystem} {r : Except Error Unit}

/-- Wherever saving ends, nothing but the file and the directories above it has changed. -/
theorem spares (h : t.Saves format o path fs r files) : fs.Spares o.createsParents path files := by
  -- whatever was done before the file was touched
  have hprepared : ∀ {prepared : FileSystem} {made : Except SystemFault Unit},
      fs.prepare o path = (prepared, made) → fs.Spares o.createsParents path prepared := by
    intro prepared made hprepare
    have hspares := FileSystem.spares_prepare fs o path
    rw [hprepare] at hspares
    exact hspares
  -- the file is written up to twice, each time at the target only
  cases h with
  | invalid _ => exact .refl fs
  | unprepared _ hprepare => exact hprepared hprepare
  | uncreated _ _ hprepare _ => exact hprepared hprepare
  | undocumented _ hprepare hcreate _ =>
    exact (hprepared hprepare).trans (FileSystem.spares_write hcreate)
  | unwritten _ _ hprepare hcreate _ _ =>
    exact (hprepared hprepare).trans (FileSystem.spares_write hcreate)
  | saved _ hprepare hcreate _ hwrite =>
    exact ((hprepared hprepare).trans (FileSystem.spares_write hcreate)).trans
      (FileSystem.spares_write hwrite)

/-- After saving the file holds the document and nothing else, whatever it held before. Only a
device stays what it was. -/
theorem entry_of_ok (h : t.Saves format o path fs (.ok ()) files) :
    ∃ text, t.document format o = .ok text ∧
      (files.entryAt path = .ok (.file (String.ofList text).toUTF8) ∨
        fs.entry? (fs.target path) = some .fullDevice) := by
  have hspares := h.spares
  cases h with
  | saved _ _ _ hdocument hwrite =>
    refine ⟨_, hdocument, ?_⟩
    obtain hfile | hdevice := FileSystem.entryAt_of_write hwrite
    · exact .inl hfile
    · exact .inr (hspares.device_of_entryAt hdevice)

end Table.Saves

/-- Saving leaves every entry of the file system as it is, but for the one file that the path leads
to and, if the options say so, directories above it, which may be new. Options that are not valid
leave everything as it is; and if the table is saved, then what the file holds is told by the table
and the options. Loading does not change a file system. -/
theorem Instance.touches_only_target (i : Instance) (format : FileFormat) (o : Options)
    (path : String) (s : Session) :
    (∀ r s', (i.save format o path).run.run s = (r, s') →
      s.files.Spares o.createsParents path s'.files ∧
      ((∃ fault, o.check = .error fault) → s' = s) ∧
      (r = .ok () → ∃ text, i.table.document format o = .ok text ∧
        (s'.files.entryAt path = .ok (.file (String.ofList text).toUTF8) ∨
          s.files.entry? (s.files.target path) = some .fullDevice))) ∧
    ∀ r s', (load format o path).run.run s = (r, s') → s'.files = s.files := by
  refine ⟨fun r s' hrun => ?_, fun r s' hrun => ?_⟩
  · have hsaves := save_saves i format o path s
    rw [hrun] at hsaves
    refine ⟨hsaves.spares, ?_, ?_⟩
    · -- the options are looked at first
      rintro ⟨fault, ho⟩
      rw [save_run_of_invalid ho] at hrun
      exact (Prod.mk.inj hrun).2.symm
    · rintro rfl
      exact hsaves.entry_of_ok
  · -- loading only looks
    have hfiles := (load_loads format o path s).2
    rw [hrun] at hfiles
    exact hfiles

end Tabula
