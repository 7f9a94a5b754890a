import Tabula.Proofs.Equality
import Tabula.Proofs.Inference
import Tabula.Proofs.Sheets
import Tabula.Proofs.Storing

/-!
# Tables that are saved and loaded

Saving a table writes its document to a file, and loading reads the file as a frame of which a table
is made. Neither knows what the other has done, so a table comes back only if the document is read
as the frame that it was written from, and if the file is found where it was written to.

* `FileSystem.Writable` — whether a table can be saved under a path.
* `Table.Saves.of_writable`, `Table.Loads.eq_ok` — saving and loading if nothing is in their way.
* `Instance.load_of_save_json` — a table without floating-point numbers whose first row is without
  nulls comes back from a JSON file, in each of its layouts.
* `Instance.load_of_save_csv` — a table of integers and truth values comes back from a CSV file.
-/

namespace Tabula

variable {t : Table} {n : Nat} {cs : List Column} {i : Instance} {s : Session} {o : Options}
  {format : FileFormat} {path : String} {text : List Char} {contents : ByteArray}
  {files : FileSystem} {e : Entry} {f : Frame}

/-! ### Paths -/

/-- Once the directories above it are there, a file can be written to the path. -/
def FileSystem.Writable (fs : FileSystem) (o : Options) (path : String) : Prop :=
  ∃ files, fs.prepare o path = (files, .ok ()) ∧ files.Takes path

/-! ### Saving and loading -/

/-- Under a path that can be written to the document of the table is found afterwards. -/
theorem Table.Saves.of_writable {r : Except Error Unit} (h : t.Saves format o path s.files r files)
    (ho : o.check = .ok ()) (hdocument : t.document format o = .ok text)
    (hpath : s.files.Writable o path) :
    r = .ok () ∧ files.entryAt path = .ok (.file (String.ofList text).toUTF8) := by
  obtain ⟨prepared, hprepare, htakes⟩ := hpath
  obtain ⟨emptied, hcreate, hagain, -⟩ := htakes.exists_write .empty
  obtain ⟨filled, hwrite, -, hentry⟩ := hagain.exists_write (String.ofList text).toUTF8
  -- each step succeeds, so none of them is where the saving ended
  cases h with
  | invalid ho' => cases ho.symm.trans ho'
  | unprepared _ hprepare' => cases hprepare.symm.trans hprepare'
  | uncreated _ _ hprepare' hcreate' =>
    cases hprepare.symm.trans hprepare'
    cases hcreate.symm.trans hcreate'
  | undocumented _ _ _ hdocument' => cases hdocument.symm.trans hdocument'
  | unwritten _ _ hprepare' hcreate' hdocument' hwrite' =>
    cases hprepare.symm.trans hprepare'
    cases hcreate.symm.trans hcreate'
    cases hdocument.symm.trans hdocument'
    cases hwrite.symm.trans hwrite'
  | saved _ hprepare' hcreate' hdocument' hwrite' =>
    cases hprepare.symm.trans hprepare'
    cases hcreate.symm.trans hcreate'
    cases hdocument.symm.trans hdocument'
    cases hwrite.symm.trans hwrite'
    exact ⟨rfl, hentry⟩

/-- A file that is read as the frame of a table gives the table. -/
theorem Table.Loads.eq_ok {r : Except Interruption Table} (h : Table.Loads format o path files r)
    (ho : o.check = .ok ()) (hentry : files.entryAt path = .ok e)
    (hread : Reading.ofEntry format o e = .frame f) (ht : Table.ofFrame f = .ok t) : r = .ok t := by
  rw [h.eq_of_read ho hentry hread, ht]
  rfl

/-- A table comes back if its document is read as the frame that it was written from. -/
theorem Instance.load_of_save (h : i.table.Holds n cs) (ho : o.check = .ok ())
    (hdocument : i.table.document format o = .ok text)
    (hread : Reading.ofEntry format o (.file (String.ofList text).toUTF8) = .frame i.table.frame)
    (hpath : s.files.Writable o path) :
    ∃ s' j s'', (i.save format o path).run.run s = (.ok (), s') ∧
      (Instance.load format o path).run.run s' = (.ok j, s'') ∧ j.table = i.table ∧
        (j == i) = true := by
  obtain ⟨hsaved, hentry⟩ := (Instance.save_saves i format o path s).of_writable ho hdocument hpath
  have hloads := Instance.load_loads format o path ((i.save format o path).run.run s).2
  obtain ⟨j, hloaded, hj⟩ := map_eq_ok_iff.1 (hloads.1.eq_ok ho hentry hread h.ofFrame_frame)
  refine ⟨_, j, _, Prod.ext hsaved rfl, Prod.ext hloaded rfl, hj, ?_⟩
  show (_ || j.table == i.table) = true
  rw [hj, h.beq_self, Bool.or_true]

/-- A table without floating-point numbers comes back from a JSON file, cell for cell, if it has
rows and columns and no null in its first row. The layout of the file and the number of rows that
are scanned make no difference, and texts may consist of any characters. -/
theorem Instance.load_of_save_json (hi : Reachable (.table i.table))
    (hrows : 0 < i.table.rowCount) (hcolumns : 0 < i.table.columnCount)
    (htypes : ∀ p ∈ i.table.schema.columns, p.2 ≠ .float)
    (hnull : ∀ r, i.table.row 0 = .ok r → ∀ v ∈ r.values, v.isNull = false)
    (ho : o.check = .ok ()) (hpath : s.files.Writable o path) :
    ∃ s' j s'', (i.save .json o path).run.run s = (.ok (), s') ∧
      (Instance.load .json o path).run.run s' = (.ok j, s'') ∧ j.table = i.table ∧
        (j == i) = true := by
  obtain ⟨n, cs, hh⟩ := hi.sound
  rw [hh.rowCount_eq] at hrows
  rw [hh.columnCount_eq] at hcolumns
  rw [hh.columns_eq] at htypes
  obtain ⟨text, hdocument, hread⟩ := hh.exists_document hrows (List.length_pos_iff.1 hcolumns)
    (fun c hc => htypes _ (List.mem_map_of_mem hc)) hnull ho
  exact Instance.load_of_save hh ho hdocument hread hpath

/-- A directory can be made in the working directory, and a file in it. -/
theorem FileSystem.writable_initial : initial.Writable .default "out/scores" := by
  have hdirectory : initial.locate "out" = .ok ["work", "out"] :=
    locate_eq_walk (by simp) (by simp) (by decide)
  have hmake : initial.makeDirectory "out" = .ok (initial.put ["work", "out"] .directory) := by
    rw [makeDirectory, hdirectory]
    rfl
  refine ⟨initial.put ["work", "out"] .directory, ?_, rfl, ["work", "out", "scores"], ?_,
    .inl rfl⟩
  · show makeDirectoriesAlong ["out", ""] initial = _
    rw [makeDirectoriesAlong, if_neg (by simp), hmake]
  · exact locate_eq_walk (by simp) (by simp) (by decide)

/-- The nulls of the table are in its later rows, and there is no directory above the file yet. -/
theorem Instance.load_of_save_json_scores : ∃ t i s' j s'', Table.ofFrame .scores = .ok t ∧
    i.table = t ∧ (i.save .json .default "out/scores").run.run .initial = (.ok (), s') ∧
      (Instance.load .json .default "out/scores").run.run s' = (.ok j, s'') ∧
        j.table = t ∧ (j == i) = true := by
  obtain ⟨t, ht, hrows, hcolumns, htypes, r, hr, hnull⟩ : ∃ t, Table.ofFrame .scores = .ok t ∧
      0 < t.rowCount ∧ 0 < t.columnCount ∧ (∀ p ∈ t.schema.columns, p.2 ≠ .float) ∧
        ∃ r, t.row 0 = .ok r ∧ ∀ v ∈ r.values, v.isNull = false :=
    ⟨_, rfl, by decide, by decide, by decide, _, rfl, by decide⟩
  have hfirst : ∀ q, t.row 0 = .ok q → ∀ v ∈ q.values, v.isNull = false := by
    intro q hq
    obtain rfl := Except.ok.inj (hr.symm.trans hq)
    exact hnull
  obtain ⟨s', j, s'', hsave, hload, hj, hequal⟩ :=
    Instance.load_of_save_json (i := ⟨0, t⟩) (s := .initial) (.ofFrame ht) hrows hcolumns htypes
      hfirst rfl FileSystem.writable_initial
  exact ⟨t, ⟨0, t⟩, s', j, s'', ht, rfl, hsave, hload, hj, hequal⟩

/-- A table of integers and truth values comes back from a CSV file, cell for cell, if it has rows
and columns, no null in its first row, names without special characters, and a separator that is in
none of its names and cells. How many rows are scanned makes no difference. What was encoded before
it was saved can be decoded afterwards. -/
theorem Instance.load_of_save_csv (hi : Reachable (.table i.table))
    (hrows : 0 < i.table.rowCount) (hcolumns : 0 < i.table.columnCount)
    (hplain : i.table.WritesPlain (Char.ofNat o.separator.toNat))
    (hnull : ∀ r, i.table.row 0 = .ok r → ∀ v ∈ r.values, v.isNull = false)
    (ho : o.check = .ok ()) (hpath : s.files.Writable o path) :
    ∃ s' j s'', (i.save .csv o path).run.run s = (.ok (), s') ∧
      (Instance.load .csv o path).run.run s' = (.ok j, s'') ∧ j.table = i.table ∧
        (j == i) = true ∧ ∀ e name, Encoder.inverse e j.table name = e.inverse i.table name := by
  obtain ⟨n, cs, hh⟩ := hi.sound
  rw [hh.rowCount_eq] at hrows
  rw [hh.columnCount_eq] at hcolumns
  obtain ⟨text, hdocument, hread⟩ := hh.exists_sheet hrows (List.length_pos_iff.1 hcolumns) hplain
    hnull ho
  obtain ⟨s', j, s'', hsave, hload, hj, hequal⟩ :=
    Instance.load_of_save hh ho hdocument hread hpath
  exact ⟨s', j, s'', hsave, hload, hj, hequal, fun e name => by rw [hj]⟩

/-- Names are encoded, saved as codes, loaded and decoded. -/
theorem Instance.load_of_save_csv_scores : ∃ t e u s' j s'' w, Table.ofFrame .scores = .ok t ∧
    (Encoder.fit t "name").run.run (.ofRule .label) = (.ok (), e) ∧
      e.transform t "name" = .ok u ∧
        ((⟨0, u⟩ : Instance).save .csv .default "out/scores").run.run .initial = (.ok (), s') ∧
          (Instance.load .csv .default "out/scores").run.run s' = (.ok j, s'') ∧
            j.table = u ∧ e.inverse u "name" = .ok w ∧ e.inverse j.table "name" = .ok w := by
  obtain ⟨t, e, u, w, ht, he, hu, hw, hrows, hcolumns, htypes, hnames, r, hr, hnull⟩ :
      ∃ t e u w, Table.ofFrame .scores = .ok t ∧
        (Encoder.fit t "name").run.run (.ofRule .label) = (.ok (), e) ∧
        e.transform t "name" = .ok u ∧ e.inverse u "name" = .ok w ∧ 0 < u.rowCount ∧
        0 < u.columnCount ∧ (∀ p ∈ u.schema.columns, p.2 = .integer ∨ p.2 = .boolean) ∧
        u.columnNames = ["name", "score"] ∧
        ∃ r, u.row 0 = .ok r ∧ ∀ v ∈ r.values, v.isNull = false :=
    ⟨_, _, _, _, rfl, rfl, rfl, rfl, by decide, by decide, by decide, rfl, _, rfl, by decide⟩
  have hletters : ∀ name ∈ u.columnNames,
      name ≠ "" ∧ ∀ c ∈ name.toList, c.isAlphanum = true ∨ c = '_' := by
    rw [hnames]
    intro name hname
    have hall : (["name", "score"].all fun name =>
      name ≠ "" && name.toList.all Char.isAlphanum) = true := by decide
    have hname' := List.all_eq_true.1 hall name hname
    rw [Bool.and_eq_true, decide_eq_true_eq] at hname'
    exact ⟨hname'.1, fun c hc => .inl (List.all_eq_true.1 hname'.2 c hc)⟩
  have hreachable : Reachable (.table u) := by
    have hencoder := Reachable.afterFit "name" (.ofRule .label) (.ofFrame ht)
    rw [he] at hencoder
    exact .transform hencoder (.ofFrame ht) hu
  obtain ⟨n, cs, hh⟩ := hreachable.sound
  have hfirst : ∀ q, u.row 0 = .ok q → ∀ v ∈ q.values, v.isNull = false := by
    intro q hq
    obtain rfl := Except.ok.inj (hr.symm.trans hq)
    exact hnull
  obtain ⟨s', j, s'', hsave, hload, hj, -, hinverse⟩ :=
    Instance.load_of_save_csv (i := ⟨0, u⟩) (s := .initial) hreachable hrows hcolumns
      (hh.writesPlain_of_not_isWord htypes hletters rfl) hfirst rfl FileSystem.writable_initial
  exact ⟨t, e, u, s', j, s'', w, ht, he, hu, hsave, hload, hj, hw, (hinverse e "name").trans hw⟩

end Tabula
