import Tabula.Proofs.Identity

/-!
# Rebuilding a table from its parts

A table can be taken apart in three ways: into its frame, into its columns and into its rows. What
is built from the parts is the table again, cell for cell, but under another number. The columns do
not say how many rows there are if there are no columns, and the rows do not say which columns there
are if there are no rows; in these cases, and in no others, an empty table comes back.

* `Holds.ofFrame_frame`, `Holds.ofColumns_columns`, `Holds.ofRows_toRows` — the three ways.
* `Instance.Rebuilt` — what comes back, if the parts are complete and if they are not.
* `Run.rebuilt_from_parts` — all three ways, for every table of a run.
* `Run.exists_instance` — every table that can be reached comes up in a run.
-/

namespace Tabula

variable {t : Table} {n k : Nat} {cs : List Column} {c : Column} {vs : List Value} {rs : List Row}

namespace Table

namespace Holds

/-! ### The parts of a table -/

theorem frame_eq (h : t.Holds n cs) : t.frame = ⟨n, cs.map Column.series⟩ := by
  rw [← h.series_eq, ← h.height_eq]

theorem ofColumns_entries (h : t.Holds n cs) :
    Schema.ofColumns (cs.map Column.entry) = .ok t.schema :=
  Schema.ofColumns_eq_ok_iff.2 h.columns_eq

/-- The series have different names, as the columns do. -/
theorem nodup_series (h : t.Holds n cs) : ((cs.map Column.series).map Series.name).Nodup := by
  have hnames : t.frame.names = cs.map Column.name := h.frame_names_eq
  rw [Frame.names, h.series_eq] at hnames
  rw [hnames]
  exact h.nodup

/-- The series are as long as there are rows. -/
theorem length_series (h : t.Holds n cs) : ∀ s ∈ cs.map Column.series, s.length = n := by
  intro s hs
  obtain ⟨c, hc, rfl⟩ := List.mem_map.1 hs
  exact h.length_eq c hc

/-- The series give the frame back. -/
theorem ofSeriesOver_series (h : t.Holds n cs) :
    Frame.ofSeriesOver n (cs.map Column.series) = .ok t.frame := by
  rw [h.frame_eq]
  exact Frame.ofSeriesOver_of_forall h.length_series h.nodup_series

/-! ### Frames and columns -/

/-- A frame gives its table back. -/
theorem ofFrame_frame (h : t.Holds n cs) : ofFrame t.frame = .ok t := by
  -- the series are in canonical storage, which is left as it is
  have hnormal : t.frame.series.mapM Series.normalize =
      .ok (cs.map fun c => (c.series, c.type)) := by
    rw [mapM_eq_ok_iff, h.series_eq, List.forall₂_map_left_iff, List.forall₂_map_right_iff,
      List.forall₂_same]
    exact fun c hc => Series.normalize_of_dtype_eq (h.canonical c hc).dtype_eq
  have hentries : (cs.map fun c => (c.series, c.type)).map (fun p => (p.1.name, p.2)) =
      cs.map Column.entry := by
    rw [List.map_map]
    refine List.map_congr_left fun c hc => ?_
    show (c.series.name, c.type) = c.entry
    rw [(h.canonical c hc).name_eq]
    rfl
  have hframe : Frame.ofSeriesOver t.frame.height
      ((cs.map fun c => (c.series, c.type)).map Prod.fst) = .ok t.frame := by
    rw [List.map_map, h.height_eq]
    exact h.ofSeriesOver_series
  -- the three steps: the series are normalized, the schema is built, and then the frame
  refine bind_eq_ok_iff.2 ⟨_, hnormal, bind_eq_ok_iff.2 ⟨t.schema, ?_,
    bind_eq_ok_iff.2 ⟨_, hframe, rfl⟩⟩⟩
  exact hentries ▸ h.ofColumns_entries

/-- The columns give their table back, if there are any. -/
theorem ofColumns_columns (h : t.Holds n cs) (hne : cs ≠ []) : ofColumns cs = .ok t := by
  have hframe : Frame.ofSeries (cs.map Column.series) = .ok t.frame := by
    rw [h.frame_eq]
    exact Frame.ofSeries_of_forall (fun hs => hne (List.map_eq_nil_iff.1 hs)) h.length_series
      h.nodup_series
  rw [ofColumns_of_forall_length h.length_eq]
  exact bind_eq_ok_iff.2 ⟨_, h.ofColumns_entries, bind_eq_ok_iff.2 ⟨_, hframe, rfl⟩⟩

/-! ### Rows -/

/-- The rows of a table are as many as it has, all under its schema, and have the values of the
columns at the positions of these. -/
theorem toRows_spec (h : t.Holds n cs) (hrs : t.toRows = .ok rs) :
    rs.length = n ∧ ∀ (k : Nat) (r : Row), rs[k]? = some r → r.schema = t.schema ∧
      ∀ (i : Nat) (c : Column) vs, cs[i]? = some c → c.values = .ok vs →
        r.values[i]? = vs[k]? := by
  refine ⟨h.length_toRows hrs, fun k r hr => ?_⟩
  obtain ⟨-, hrow⟩ := (h.getElem?_toRows hrs).1 hr
  obtain ⟨hschema, hcells⟩ := h.row_spec hrow
  refine ⟨hschema, fun i c vs hc hvs => ?_⟩
  -- the cell is read once for the row and once for the column
  obtain ⟨v, hv, hcell⟩ := exists_getElem?_of_forall₂ hcells.flip hc
  rw [hv, (Column.value_eq_ok_iff hvs).1 hcell]

/-- The values that the rows hold at the position of a column are those of the column. -/
theorem valuesAt_toRows (h : t.Holds n cs) (hrs : t.toRows = .ok rs) {i : Nat}
    (hc : cs[i]? = some c) (hvs : c.values = .ok vs) : valuesAt rs i = .ok vs := by
  obtain ⟨hlen, hspec⟩ := h.toRows_spec hrs
  have hvl : vs.length = n :=
    (Series.values_spec hvs).2.1.trans (h.length_eq c (List.mem_of_getElem? hc))
  rw [valuesAt, mapM_eq_ok_iff, List.forall₂_iff_get]
  -- row by row, the value at the place of the column is its cell
  refine ⟨hlen.trans hvl.symm, fun k hk hkv => ?_⟩
  obtain ⟨-, hcell⟩ := hspec k rs[k] (List.getElem?_eq_getElem hk)
  have hget : rs[k].values[i]? = some vs[k] := by
    rw [hcell i c vs hc hvs, List.getElem?_eq_getElem hkv]
  exact elementAt_eq_ok_iff.2 hget

/-- The rows of a table make this very table under its schema, also if there are none. -/
theorem ofAgreeing_toRows (h : t.Holds n cs) (hrs : t.toRows = .ok rs) :
    ofAgreeing t.schema rs = .ok t := by
  obtain ⟨hlen, -⟩ := h.toRows_spec hrs
  have hvalues : ∀ i c vs, cs[i]? = some c → c.values = .ok vs → valuesAt rs i = .ok vs :=
    fun i c vs hc hvs => h.valuesAt_toRows hrs hc hvs
  obtain ⟨u, hu, hh⟩ := exists_ofAgreeing h.columns_eq h.canonical (hlen ▸ h.length_eq) hvalues
  rw [hlen] at hh
  rw [hu, hh.unique h]

/-- The rows give their table back, if there are any. -/
theorem ofRows_toRows (h : t.Holds n cs) (hrs : t.toRows = .ok rs) (hne : rs ≠ []) :
    ofRows rs = .ok t := by
  obtain ⟨-, hspec⟩ := h.toRows_spec hrs
  have hschema : ∀ r ∈ rs, r.schema = t.schema := by
    intro r hr
    obtain ⟨k, hk⟩ := List.mem_iff_getElem?.1 hr
    exact (hspec k r hk).1
  rw [ofRows_of_forall_schema hschema hne]
  exact h.ofAgreeing_toRows hrs

/-! ### Incomplete parts -/

theorem columnCount_eq (h : t.Holds n cs) : t.columnCount = cs.length := by
  rw [columnCount, Schema.length, h.columns_eq, List.length_map]

/-- The columns of a table say everything of it, unless it has rows without columns. -/
theorem ofColumns_cases (h : t.Holds n cs) : ofColumns cs =
    if 0 < t.columnCount ∨ t.rowCount = 0 then .ok t else .ok .empty := by
  rw [h.columnCount_eq, h.rowCount_eq]
  -- without columns the rows are forgotten, which changes nothing only if there are none
  by_cases hcs : cs = []
  · subst hcs
    by_cases hn : n = 0
    · subst hn
      rw [if_pos (.inr rfl), h.unique holds_empty]
      rfl
    · rw [if_neg (by simp [hn])]
      rfl
  · rw [if_pos (.inl (List.length_pos_iff.2 hcs))]
    exact h.ofColumns_columns hcs

/-- The rows of a table say everything of it, unless it has columns without rows. -/
theorem ofRows_cases (h : t.Holds n cs) (hrs : t.toRows = .ok rs) : ofRows rs =
    if 0 < t.rowCount ∨ t.columnCount = 0 then .ok t else .ok .empty := by
  obtain ⟨hlen, -⟩ := h.toRows_spec hrs
  rw [h.columnCount_eq, h.rowCount_eq, ← hlen]
  -- without rows the columns are forgotten, which changes nothing only if there are none
  by_cases hne : rs = []
  · subst hne
    obtain rfl : n = 0 := hlen.symm
    by_cases hcs : cs = []
    · subst hcs
      rw [if_pos (.inr rfl), h.unique holds_empty]
      rfl
    · rw [if_neg (by simp [hcs])]
      rfl
  · rw [if_pos (.inl (List.length_pos_iff.2 hne))]
    exact h.ofRows_toRows hrs hne

end Holds

end Table

/-! ### Rebuilding in a run -/

/-- What comes back of the table `i` when it is built from its parts: the same table, cell for cell,
if the parts are complete, and the empty table otherwise. It has a number of its own. -/
structure Instance.Rebuilt (i j : Instance) (complete : Prop) : Prop where
  equal_iff : (j == i) = true ↔ complete
  identical : complete → j.table = i.table
  emptied : ¬complete → j.table = .empty
  new : i.same j = false

namespace Run

variable {w : World} {i j : Instance}

/-- A new table that is the old one or, if the old one is not empty, the empty one. -/
theorem rebuilt (h : Run w) (hi : i ∈ w.tables) {complete : Prop} [Decidable complete]
    (hj : j.serial = w.session.issued)
    (htable : j.table = if complete then i.table else .empty)
    (hparts : ¬complete → 0 < i.table.columnCount ∨ 0 < i.table.rowCount) :
    i.Rebuilt j complete := by
  have hnew : i.same j = false := h.same_eq_false_of_new hi hj
  refine ⟨?_, fun hc => ?_, fun hc => ?_, hnew⟩
  · have hbeq : (j == i) = true ↔ (j.table == i.table) = true := by
      have hsame : j.same i = false := by
        rw [Bool.eq_false_iff, Ne, Instance.same_iff] at hnew ⊢
        exact Ne.symm hnew
      show (j.same i || j.table == i.table) = true ↔ _
      rw [hsame, Bool.false_or]
    rw [hbeq]
    -- what is complete has come back as it was, and equals itself
    by_cases hc : complete
    · obtain ⟨n, cs, hh⟩ := (h.sound.reachable i hi).sound
      rw [htable, if_pos hc]
      exact iff_of_true hh.beq_self hc
    · rw [htable, if_neg hc]
      refine iff_of_false (fun heq => ?_) hc
      -- equal tables have as many columns and rows
      obtain ⟨hschema, hrows, -⟩ := Table.equal_iff.1 heq
      have hcols : i.table.columnCount = 0 := congrArg Schema.length hschema.symm
      have hnone : i.table.rowCount = 0 := hrows.symm
      have hsome := hparts hc
      omega
  · rw [htable, if_pos hc]
  · rw [htable, if_neg hc]

/-- Every table of a run can be built again from its frame, from its columns and from its rows. What
comes back is a new table; it is equal to the old one, and then identical in every cell, except that
columns do not bring back rows without any column and rows do not bring back columns without any
row. -/
theorem rebuilt_from_parts (h : Run w) (hi : i ∈ w.tables) :
    (∃ j s, (Instance.ofFrame i.table.frame).run.run w.session = (.ok j, s) ∧ i.Rebuilt j True) ∧
    (∃ cs j s, i.table.columns = .ok cs ∧ (Instance.ofColumns cs).run.run w.session = (.ok j, s) ∧
      i.Rebuilt j (0 < i.table.columnCount ∨ i.table.rowCount = 0)) ∧
    ∃ rs j s, i.toRows = .ok rs ∧ (Instance.ofSharedRows rs).run.run w.session = (.ok j, s) ∧
      i.Rebuilt j (0 < i.table.rowCount ∨ i.table.columnCount = 0) := by
  obtain ⟨n, cs, hh⟩ := (h.sound.reachable i hi).sound
  refine ⟨?_, ?_, ?_⟩
  · -- from the frame: nothing is lost
    have hrun := (Instance.ofFrame_run i.table.frame w.session).trans
      (Action.build_run hh.ofFrame_frame _)
    exact ⟨_, _, hrun, h.rebuilt hi rfl (if_pos trivial).symm fun hc => absurd trivial hc⟩
  · -- from the columns
    have hcases := hh.ofColumns_cases
    rw [← apply_ite Except.ok] at hcases
    refine ⟨cs, ⟨w.session.issued, _⟩, _, hh.columns_eq_ok, Action.build_run hcases _,
      h.rebuilt hi rfl rfl ?_⟩
    omega
  · -- from the rows, which share one schema as they come from one table
    obtain ⟨rows, hrows⟩ := hh.exists_toRows
    have htoRows : i.toRows = .ok (rows.map fun r => ⟨i.serial, r⟩) := by
      rw [Instance.toRows, hrows]
      rfl
    have hcases : SharedRow.toTable (rows.map fun r => ⟨i.serial, r⟩) =
        if 0 < i.table.rowCount ∨ i.table.columnCount = 0 then .ok i.table else .ok .empty := by
      rw [SharedRow.toTable_eq, List.map_map]
      · exact (congrArg Table.ofRows (List.map_id rows)).trans (hh.ofRows_cases hrows)
      · intro r hr q hq _
        have hrq : r.shared = q.shared := (Instance.shared_of_toRows hh htoRows hr).trans
          (Instance.shared_of_toRows hh htoRows hq).symm
        exact congrArg SharedSchema.schema hrq
    rw [← apply_ite Except.ok] at hcases
    refine ⟨_, ⟨w.session.issued, _⟩, _, htoRows, Action.build_run hcases _,
      h.rebuilt hi rfl rfl ?_⟩
    omega

/-- Without its columns a table keeps its three rows, which only its frame brings back. -/
theorem rebuilt_from_parts_scores : ∃ w i j k s s', Run w ∧ i ∈ w.tables ∧ i.table.rowCount = 3 ∧
    (Instance.ofFrame i.table.frame).run.run w.session = (.ok j, s) ∧ j.table = i.table ∧
      (Instance.ofColumns []).run.run w.session = (.ok k, s') ∧ k.table = .empty := by
  obtain ⟨w, i, hw, hi, hrows, hcount, hcols⟩ : ∃ (w : World) (i : Instance), Run w ∧
      i ∈ w.tables ∧ i.table.rowCount = 3 ∧ i.table.columnCount = 0 ∧ i.table.columns = .ok [] :=
    ⟨_, _, .command (c := .drop _ ["name", "score"]) (.command (c := .ofFrame .scores)
      (.start .initial) trivial) List.mem_cons_self, List.mem_cons_self, rfl, rfl, rfl⟩
  obtain ⟨⟨j, s, hj, hij⟩, ⟨cs, k, s', hcs, hk, hik⟩, -⟩ := rebuilt_from_parts hw hi
  obtain rfl : [] = cs := Except.ok.inj (hcols.symm.trans hcs)
  exact ⟨w, i, j, k, s, s', hw, hi, hrows, hj, hij.identical trivial, hk,
    hik.emptied (by omega)⟩

/-- Whatever table can be reached, any run can go on to have it: the table of its frame is this very
table. What is said of the tables of runs is therefore said of all tables that can be reached. -/
theorem exists_instance (h : Run w) (ht : Reachable (.table t)) :
    ∃ w' i, Run w' ∧ (∀ j ∈ w.tables, j ∈ w'.tables) ∧ i ∈ w'.tables ∧ i.table = t := by
  obtain ⟨n, cs, hh⟩ := ht.sound
  have hrun := (Instance.ofFrame_run t.frame w.session).trans
    (Action.build_run hh.ofFrame_frame _)
  have htables : (w.after (.ofFrame t.frame)).tables = ⟨w.session.issued, t⟩ :: w.tables := by
    rw [World.after, Command.run, run_map, Attempt.run_lift, hrun]
    rfl
  have hw : Run (w.after (.ofFrame t.frame)) := .command h trivial
  refine ⟨_, ⟨w.session.issued, t⟩, hw, fun j hj => ?_, ?_, rfl⟩
  · rw [htables]
    exact List.mem_cons_of_mem _ hj
  · rw [htables]
    exact List.mem_cons_self

end Run

end Tabula
