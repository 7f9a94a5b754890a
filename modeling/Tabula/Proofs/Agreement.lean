import Tabula.Proofs.Canonical
import Tabula.Proofs.Registry
import Tabula.Table.Basic

/-!
# Agreement of schema and frame

The schema and the frame of a table are two records of the same columns, and every operation writes
both. `Table.Holds` says that they agree, by naming the columns that both record; what an operation
does to a table is then said once, as what it does to this list.

* `Table.Holds` — the table consists of the given columns over the given number of rows.
* `Holds.unique` — these determine the table.
* `Holds.column_eq_ok_iff`, `Holds.columns_eq_ok`, `Holds.exists_row`, `Holds.toRows_eq` — what is
  read from a table that agrees with itself.
-/

namespace Tabula

/-- An element is found where the list has one. -/
theorem elementAt_eq_ok_iff {α : Type} {xs : List α} {i : Nat} {x : α} :
    elementAt xs i = .ok x ↔ xs[i]? = some x := by
  rw [elementAt]
  cases xs[i]? with
  | none => simp
  | some y => simp

/-- An index is accepted if it is neither negative nor past the end. -/
theorem checkedIndex_eq_ok_iff {index : Int} {length k : Nat} :
    checkedIndex index length = .ok k ↔ index = k ∧ k < length := by
  rw [checkedIndex]
  split
  · rw [Except.ok.injEq]
    omega
  · simp only [reduceCtorEq, false_iff]
    omega

/-! ### Frames -/

namespace Frame

variable {f g : Frame} {name : String} {s : Series}

/-- A name finds the one series that has it. -/
theorem seriesOf_eq_ok_iff (hf : f.names.Nodup) :
    f.seriesOf name = .ok s ↔ s ∈ f.series ∧ s.name = name := by
  have hs : f.series? name = some s ↔ s ∈ f.series ∧ s.name = name := by
    refine ⟨?_, ?_⟩
    · intro h
      exact ⟨List.mem_of_find?_eq_some h, by simpa using List.find?_some h⟩
    · rintro ⟨hm, rfl⟩
      obtain ⟨u, hu⟩ : ∃ u, f.series? s.name = some u :=
        Option.isSome_iff_exists.1 (List.find?_isSome.2 ⟨s, hm, by simp⟩)
      have hn : u.name = s.name := by simpa using List.find?_some hu
      -- what is found has the name, and only one series does
      rw [hu, List.inj_on_of_nodup_map hf (List.mem_of_find?_eq_some hu) hm hn]
  rw [← hs, seriesOf]
  cases f.series? name with
  | none => simp
  | some u => simp

/-- A frame of series holds them at their common length. -/
theorem ofSeries_eq_ok {ss : List Series} (h : ofSeries ss = .ok f) :
    f.series = ss ∧ ∀ s ∈ ss, s.length = f.height := by
  -- without series the height is nothing, otherwise it is the length of the first
  cases ss with
  | nil =>
    obtain rfl := Except.ok.inj h
    simp [ofHeight]
  | cons first rest =>
    rw [ofSeries] at h
    split at h
    · cases h
    · next hl =>
      split at h
      · cases h
      · obtain rfl := Except.ok.inj h
        simpa using hl

/-- The same over a given number of rows, which counts only if there are no series. -/
theorem ofSeriesOver_eq_ok {ss : List Series} {n : Nat} (h : ofSeriesOver n ss = .ok f) :
    f.series = ss ∧ (∀ s ∈ ss, s.length = f.height) ∧ (ss = [] → f.height = n) := by
  cases ss with
  | nil =>
    obtain rfl := Except.ok.inj h
    simp [ofHeight]
  | cons first rest =>
    rw [ofSeriesOver, if_neg (by simp)] at h
    obtain ⟨hs, hl⟩ := ofSeries_eq_ok h
    exact ⟨hs, hl, fun he => absurd he (List.cons_ne_nil _ _)⟩

/-- Series of one length and of different names make a frame. -/
theorem ofSeries_of_forall {ss : List Series} {n : Nat} (hne : ss ≠ [])
    (hl : ∀ s ∈ ss, s.length = n) (hn : (ss.map Series.name).Nodup) :
    ofSeries ss = .ok ⟨n, ss⟩ := by
  cases ss with
  | nil => exact absurd rfl hne
  | cons first rest =>
    obtain ⟨hfirst, hrest⟩ := List.forall_mem_cons.1 hl
    have hall : (rest.all fun s => s.length = first.length) = true := by
      rw [List.all_eq_true]
      intro s hs
      exact decide_eq_true ((hrest s hs).trans hfirst.symm)
    rw [ofSeries, if_neg (not_not_intro hall), if_neg (not_not_intro hn), hfirst]

/-- They also make one over a number of rows that is given, even if there are no series. -/
theorem ofSeriesOver_of_forall {ss : List Series} {n : Nat} (hl : ∀ s ∈ ss, s.length = n)
    (hn : (ss.map Series.name).Nodup) : ofSeriesOver n ss = .ok ⟨n, ss⟩ := by
  cases ss with
  | nil => rfl
  | cons first rest =>
    rw [ofSeriesOver, if_neg (by simp)]
    exact ofSeries_of_forall (List.cons_ne_nil _ _) hl hn

end Frame

/-! ### The columns of a table -/

/-- What a schema records of a column. -/
def Column.entry (c : Column) : String × ColumnType := (c.name, c.type)

namespace Table

/-- The table consists of the columns: its schema and its frame record exactly them, in order, each
canonical and with one cell for each row. -/
structure Holds (t : Table) (n : Nat) (cs : List Column) : Prop where
  columns_eq : t.schema.columns = cs.map Column.entry
  series_eq : t.frame.series = cs.map Column.series
  height_eq : t.frame.height = n
  canonical : ∀ c ∈ cs, c.Canonical
  length_eq : ∀ c ∈ cs, c.length = n

/-- The schema and the frame of the table agree. -/
def Consistent (t : Table) : Prop := ∃ n cs, t.Holds n cs

namespace Holds

variable {t u : Table} {n k : Nat} {cs : List Column} {c : Column} {name : String} {i : Int}
  {r : Row} {rs : List Row}

/-- The columns and the number of rows determine the table. -/
theorem unique (ht : t.Holds n cs) (hu : u.Holds n cs) : t = u := by
  obtain ⟨s, ⟨k, ss⟩⟩ := t
  obtain ⟨s', ⟨k', ss'⟩⟩ := u
  obtain rfl : s = s' := Schema.ext_columns (ht.columns_eq.trans hu.columns_eq.symm)
  obtain rfl : k = k' := ht.height_eq.trans hu.height_eq.symm
  obtain rfl : ss = ss' := ht.series_eq.trans hu.series_eq.symm
  rfl

theorem rowCount_eq (h : t.Holds n cs) : t.rowCount = n := h.height_eq

theorem columnNames_eq (h : t.Holds n cs) : t.columnNames = cs.map Column.name := by
  rw [columnNames, Schema.names, h.columns_eq, List.map_map]
  rfl

theorem frame_names_eq (h : t.Holds n cs) : t.frame.names = cs.map Column.name := by
  rw [Frame.names, h.series_eq, List.map_map]
  exact List.map_congr_left fun c hc => (h.canonical c hc).name_eq

/-- No two of the columns have one name, since a schema lets none through. -/
theorem nodup (h : t.Holds n cs) : (cs.map Column.name).Nodup := by
  rw [← h.columnNames_eq]
  exact t.schema.nodup

/-- The name of a column tells which one it is. -/
theorem eq_of_name_eq (h : t.Holds n cs) {d : Column} (hc : c ∈ cs) (hd : d ∈ cs)
    (hn : c.name = d.name) : c = d :=
  List.inj_on_of_nodup_map h.nodup hc hd hn

theorem mem_columnNames_iff (h : t.Holds n cs) :
    name ∈ t.columnNames ↔ ∃ c ∈ cs, c.name = name := by
  rw [h.columnNames_eq, List.mem_map]

/-! ### Reading -/

/-- A name finds the one column that has it. -/
theorem column_eq_ok_iff (h : t.Holds n cs) : t.column name = .ok c ↔ c ∈ cs ∧ c.name = name := by
  have hnodup : t.frame.names.Nodup := h.frame_names_eq ▸ h.nodup
  refine ⟨?_, ?_⟩
  · intro hc
    obtain ⟨type, ht, hc⟩ := bind_eq_ok_iff.1 hc
    obtain ⟨s, hs, hc⟩ := bind_eq_ok_iff.1 hc
    obtain rfl : (⟨name, type, s⟩ : Column) = c := Except.ok.inj hc
    rw [Schema.typeOf_eq_ok_iff, h.columns_eq, List.mem_map] at ht
    obtain ⟨d, hd, hde⟩ := ht
    obtain ⟨rfl, rfl⟩ := Prod.mk.inj hde
    rw [Frame.seriesOf_eq_ok_iff hnodup, h.series_eq, List.mem_map] at hs
    obtain ⟨⟨e, he, rfl⟩, hen⟩ := hs
    -- the schema gave the type of `d` and the frame the series of `e`; both have the name
    obtain rfl : e = d := h.eq_of_name_eq he hd ((h.canonical e he).name_eq.symm.trans hen)
    exact ⟨hd, rfl⟩
  · rintro ⟨hc, rfl⟩
    have ht : t.schema.typeOf c.name = .ok c.type := by
      rw [Schema.typeOf_eq_ok_iff, h.columns_eq]
      exact List.mem_map.2 ⟨c, hc, rfl⟩
    have hs : t.frame.seriesOf c.name = .ok c.series := by
      rw [Frame.seriesOf_eq_ok_iff hnodup, h.series_eq]
      exact ⟨List.mem_map.2 ⟨c, hc, rfl⟩, (h.canonical c hc).name_eq⟩
    exact bind_eq_ok_iff.2 ⟨_, ht, bind_eq_ok_iff.2 ⟨_, hs, rfl⟩⟩

/-- A column that is found is stored as its type asks for. -/
theorem canonical_of_column (h : t.Holds n cs) (hc : t.column name = .ok c) : c.Canonical :=
  h.canonical c (h.column_eq_ok_iff.1 hc).1

/-- All columns of the table can be read, and they are the ones it consists of. -/
theorem columns_eq_ok (h : t.Holds n cs) : t.columns = .ok cs := by
  rw [columns, mapM_eq_ok_iff, h.columnNames_eq, List.forall₂_map_left_iff, List.forall₂_same]
  exact fun c hc => h.column_eq_ok_iff.2 ⟨hc, rfl⟩

/-- A cell within the rows reads the same by itself and in the list of its column. -/
theorem exists_cell (h : t.Holds n cs) (hc : c ∈ cs) {i : Nat} (hi : i < n) :
    ∃ v, c.series.value i = .ok v ∧ ∀ vs, c.values = .ok vs → vs[i]? = some v := by
  obtain ⟨vs, hvs, hl, -⟩ := (h.canonical c hc).exists_values
  have hiv : i < vs.length := by
    rw [hl, h.length_eq c hc]
    exact hi
  have hv : vs[i]? = some vs[i] := List.getElem?_eq_getElem hiv
  refine ⟨vs[i], Series.value_eq_ok hvs hv, ?_⟩
  intro ws hws
  obtain rfl := Except.ok.inj (hvs.symm.trans hws)
  exact hv

/-- Every row within the bounds can be read, cell by cell in the order of the columns. -/
theorem exists_row (h : t.Holds n cs) {i : Nat} (hi : i < n) :
    ∃ vs, t.row i = .ok ⟨t.schema, vs⟩ ∧
      List.Forall₂ (fun c v => c.series.value i = .ok v) cs vs := by
  obtain ⟨vs, hvs⟩ : ∃ vs, t.frame.series.mapM (fun s => s.value i) = .ok vs := by
    refine exists_mapM_eq_ok ?_
    intro s hs
    rw [h.series_eq] at hs
    obtain ⟨c, hc, rfl⟩ := List.mem_map.1 hs
    obtain ⟨v, hv, -⟩ := h.exists_cell hc hi
    exact ⟨v, hv⟩
  -- each series has a cell at the place, so the row can be put together
  refine ⟨vs, ?_, ?_⟩
  · have hlt : i < t.rowCount := by rwa [h.rowCount_eq]
    have hb : checkedIndex i t.rowCount = .ok i := checkedIndex_eq_ok_iff.2 ⟨rfl, hlt⟩
    rw [row, hb, ok_bind, hvs]
    rfl
  · rwa [mapM_eq_ok_iff, h.series_eq, List.forall₂_map_left_iff] at hvs

/-- An index within the bounds names a row. -/
theorem exists_row_of_inside (h : t.Holds n cs) (hi : 0 ≤ i ∧ i < n) : ∃ r, t.row i = .ok r := by
  obtain ⟨k, rfl⟩ := Int.eq_ofNat_of_zero_le hi.1
  obtain ⟨vs, hvs, -⟩ := h.exists_row (Int.ofNat_lt.1 hi.2)
  exact ⟨_, hvs⟩

/-- A row holds the cells of the columns at its index. -/
theorem row_spec (h : t.Holds n cs) (hr : t.row i = .ok r) : r.schema = t.schema ∧
    List.Forall₂ (fun c v => c.value i = .ok v) cs r.values := by
  obtain ⟨k, hk, hr⟩ := bind_eq_ok_iff.1 hr
  obtain ⟨vs, hvs, hr⟩ := bind_eq_ok_iff.1 hr
  obtain rfl : (⟨t.schema, vs⟩ : Row) = r := Except.ok.inj hr
  rw [mapM_eq_ok_iff, h.series_eq, List.forall₂_map_left_iff] at hvs
  refine ⟨rfl, forall₂_imp_of_mem hvs fun c hc v hv => ?_⟩
  rw [Column.value, h.length_eq c hc, ← h.rowCount_eq, hk, ok_bind, hv]

/-- Reading all rows at once gives the rows that are read one by one. -/
theorem toRows_eq (h : t.Holds n cs) :
    t.toRows = (List.range n).mapM fun (i : Nat) => t.row i := by
  obtain ⟨vss, hvss⟩ : ∃ vss, cs.mapM Column.values = .ok vss := by
    refine exists_mapM_eq_ok ?_
    intro c hc
    obtain ⟨vs, hvs, -⟩ := (h.canonical c hc).exists_values
    exact ⟨vs, hvs⟩
  rw [toRows, h.columns_eq_ok, ok_bind, hvss, ok_bind, h.rowCount_eq]
  -- row by row: the cells picked from the columns are the cells read from the series
  refine mapM_congr fun i hi => ?_
  obtain ⟨vs, hr, hvs⟩ := h.exists_row (List.mem_range.1 hi)
  have hcells : vss.mapM (fun ws => elementAt ws i) = .ok vs := by
    refine mapM_eq_ok_iff.2 (forall₂_of_common (mapM_eq_ok_iff.1 hvss) hvs ?_)
    intro c hc ws v hws hv
    obtain ⟨w, hw, hiw⟩ := h.exists_cell hc (List.mem_range.1 hi)
    obtain rfl := Except.ok.inj (hw.symm.trans hv)
    exact elementAt_eq_ok_iff.2 (hiw ws hws)
  rw [hcells, hr]
  rfl

/-- A table that agrees with itself can be read row by row. -/
theorem exists_toRows (h : t.Holds n cs) : ∃ rs, t.toRows = .ok rs := by
  rw [h.toRows_eq]
  refine exists_mapM_eq_ok fun i hi => ?_
  obtain ⟨vs, hr, -⟩ := h.exists_row (List.mem_range.1 hi)
  exact ⟨_, hr⟩

/-- Of all rows, the one at a position is the one that is read by this index. -/
theorem getElem?_toRows (h : t.Holds n cs) (hrs : t.toRows = .ok rs) :
    rs[k]? = some r ↔ k < n ∧ t.row k = .ok r := by
  rw [h.toRows_eq, mapM_eq_ok_iff] at hrs
  constructor
  · intro hr
    -- the row was read at its own place in the range
    obtain ⟨j, hj, hrow⟩ := exists_getElem?_of_forall₂ hrs hr
    obtain ⟨hk, rfl⟩ := List.getElem?_eq_some_iff.1 hj
    rw [List.length_range] at hk
    rw [List.getElem_range] at hrow
    exact ⟨hk, hrow⟩
  · rintro ⟨hk, hrow⟩
    have hrange : (List.range n)[k]? = some k := List.getElem?_range hk
    obtain ⟨q, hq, hrow'⟩ := exists_getElem?_of_forall₂ hrs.flip hrange
    rw [hq, Except.ok.inj (hrow'.symm.trans hrow)]

/-- As many rows are read all at once as the table has. -/
theorem length_toRows (h : t.Holds n cs) (hrs : t.toRows = .ok rs) : rs.length = n := by
  rw [h.toRows_eq, mapM_eq_ok_iff] at hrs
  rw [← hrs.length_eq, List.length_range]

end Holds

/-- An index that names no row is reported with the number of rows. -/
theorem row_of_outside {t : Table} {i : Int} (h : ¬(0 ≤ i ∧ i < t.rowCount)) :
    t.row i = .error (.indexOutOfBounds i t.rowCount) := by
  rw [row, checkedIndex, if_neg h]
  rfl

/-- A name that no column has is reported before the frame is asked. -/
theorem column_of_notMem {t : Table} {name : String} (h : name ∉ t.columnNames) :
    t.column name = .error (.missingColumns [name]) := by
  rw [column, Schema.typeOf_of_notMem h]
  rfl

end Table

end Tabula
