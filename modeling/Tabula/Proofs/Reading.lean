import Tabula.Proofs.Equality
import Tabula.Proofs.Reachable

/-!
# Reading a cell

A cell is read by way of its row or by way of its column. A row is read cell by cell from the series
of the frame, in the order of the frame; the values of a column are read from one series at the type
that the schema declares, and all rows at once are put together from them, in the order of the
schema. On every table that can be reached these ways lead to the same value, and they refuse an
index or a name that is not there with the same error.

* `Holds.exists_cells`, `Holds.row_eq_ok` — one value for each column decides on a row.
* `Table.RowAt`, `Table.CellAt` — the ways to read a row and a cell, and that they agree.
* `Table.cells_read_alike` — they do, on every table, for every index and every name.
-/

namespace Tabula

variable {t : Table} {n k : Nat} {i : Int} {cs : List Column} {c : Column} {name : String}
  {cell : Column → Value}

/-- An index outside the column is reported with its length. -/
theorem Column.value_of_outside (h : ¬(0 ≤ i ∧ i < c.length)) :
    c.value i = .error (.indexOutOfBounds i c.length) := by
  rw [value, checkedIndex, if_neg h, error_bind]

namespace Table

namespace Holds

/-! ### The cells of a row -/

/-- Within the bounds there is a value for each column. -/
theorem exists_cells (h : t.Holds n cs) (hk : k < n) :
    ∃ cell : Column → Value, ∀ c ∈ cs, c.value k = .ok (cell c) := by
  have hvalue : ∀ c ∈ cs, ∃ v, c.value k = .ok v := by
    intro c hc
    obtain ⟨vs, hvs, hlength, -⟩ := (h.canonical c hc).exists_values
    have hkv : k < vs.length := by rwa [hlength, h.length_eq c hc]
    exact ⟨vs[k], (Column.value_eq_ok_iff hvs).2 (List.getElem?_eq_getElem hkv)⟩
  choose! cell hcell using hvalue
  exact ⟨cell, hcell⟩

/-- The values for the columns, in the order of the columns, are the row. -/
theorem row_eq_ok (h : t.Holds n cs) (hk : k < n) (hcell : ∀ c ∈ cs, c.value k = .ok (cell c)) :
    t.row k = .ok ⟨t.schema, cs.map cell⟩ := by
  obtain ⟨vs, hrow, -⟩ := h.exists_row hk
  have hvs : cs.map cell = vs := by
    rw [← List.forall₂_eq_eq_eq, List.forall₂_map_left_iff]
    refine forall₂_imp_of_mem (h.row_spec hrow).2 fun c hc v hv => ?_
    exact Except.ok.inj ((hcell c hc).symm.trans hv)
  rw [hrow, hvs]

/-- The row pairs each name with the cell of its column. -/
theorem pairs_eq (h : t.Holds n cs) :
    (⟨t.schema, cs.map cell⟩ : Row).pairs = cs.map fun c => (c.name, cell c) := by
  have hnames : t.schema.names = cs.map Column.name := h.columnNames_eq
  rw [Row.pairs, hnames, List.zip_map']

end Holds

/-! ### The ways to read -/

/-- The row is the one at the index, whether it is read alone, as one of the rows one after the
other, or as one of all rows at once. -/
structure RowAt (t : Table) (i : Int) (r : Row) : Prop where
  row : t.row i = .ok r
  schema_eq : r.schema = t.schema
  rows : t.rows.length = t.rowCount ∧ t.rows[i.toNat]? = some (.ok r)
  toRows : ∃ rs, t.toRows = .ok rs ∧ rs.length = t.rowCount ∧ rs[i.toNat]? = some r

/-- The value is the one in the column with the name and in the row `r` at the index, whether it is
read from the column or from the row, and it is of the type of the column if it is not empty. -/
structure CellAt (t : Table) (i : Int) (r : Row) (name : String) (v : Value) : Prop where
  /-- From the column: by the index, or at the position among all values. -/
  column : ∃ c vs, t.column name = .ok c ∧ c.value i = .ok v ∧ c.values = .ok vs ∧
    vs[i.toNat]? = some v
  /-- From the row: by the name. -/
  value : r.value name = .ok v
  /-- From the row: at the position of the column. -/
  position : ∃ j, t.schema.index name = .ok j ∧ r.values[j]? = some v ∧
    r.pairs[j]? = some (name, v)
  /-- From the row: as the one value that goes with the name. -/
  pair : ∀ w, (name, w) ∈ r.pairs ↔ w = v
  type : ∃ type, t.schema.typeOf name = .ok type ∧
    (v.isNull = true ∨ v.columnType? = some type)

namespace Holds

/-- Every way of reading a row gives the row of the cells. -/
theorem rowAt (h : t.Holds n cs) (hk : k < n) (hcell : ∀ c ∈ cs, c.value k = .ok (cell c)) :
    t.RowAt k ⟨t.schema, cs.map cell⟩ := by
  have hrow := h.row_eq_ok hk hcell
  obtain ⟨rs, hrs⟩ := h.exists_toRows
  -- by its index, as the answer at its place, and as one of all rows
  refine ⟨hrow, rfl, ⟨?_, ?_⟩, rs, hrs, ?_, ?_⟩
  · rw [rows, List.length_map, List.length_range]
  · rw [Int.toNat_natCast, rows, List.getElem?_map, h.rowCount_eq, List.getElem?_range hk]
    exact congrArg some hrow
  · rw [h.length_toRows hrs, h.rowCount_eq]
  · rw [Int.toNat_natCast]
    exact (h.getElem?_toRows hrs).2 ⟨hk, hrow⟩

/-- Every way of reading a cell gives the cell of the column. -/
theorem cellAt (h : t.Holds n cs) (hcell : ∀ c ∈ cs, c.value k = .ok (cell c)) (hc : c ∈ cs) :
    t.CellAt k ⟨t.schema, cs.map cell⟩ c.name (cell c) := by
  obtain ⟨j, hj⟩ := List.mem_iff_getElem?.1 hc
  have hindex : t.schema.index c.name = .ok j := by
    have hnames : t.schema.names = cs.map Column.name := h.columnNames_eq
    rw [Schema.index_eq_ok_iff, hnames, List.getElem?_map, hj, Option.map_some]
  have hvalue : (cs.map cell)[j]? = some (cell c) := by rw [List.getElem?_map, hj, Option.map_some]
  obtain ⟨vs, hvs, -, haccepts⟩ := (h.canonical c hc).exists_values
  have hget : vs[k]? = some (cell c) := (Column.value_eq_ok_iff hvs).1 (hcell c hc)
  -- by the column, by the row, by the pairs of the row, and of the type that is declared
  refine ⟨⟨c, vs, h.column_eq_ok_iff.2 ⟨hc, rfl⟩, hcell c hc, hvs, ?_⟩, ?_, ⟨j, hindex, hvalue, ?_⟩,
    fun w => ?_, c.type, ?_, ?_⟩
  · rwa [Int.toNat_natCast]
  · exact bind_eq_ok_iff.2 ⟨j, hindex, elementAt_eq_ok_iff.2 hvalue⟩
  · rw [h.pairs_eq, List.getElem?_map, hj, Option.map_some]
  · rw [h.pairs_eq, List.mem_map]
    constructor
    · rintro ⟨d, hd, hdw⟩
      -- no other column has the name, so the value is that of this one
      obtain ⟨hdn, rfl⟩ := Prod.mk.inj hdw
      rw [h.eq_of_name_eq hd hc hdn]
    · rintro rfl
      exact ⟨c, hc, rfl⟩
  · rw [Schema.typeOf_eq_ok_iff, h.columns_eq]
    exact List.mem_map.2 ⟨c, hc, rfl⟩
  · exact accepts_iff.1 (haccepts _ (List.mem_of_getElem? hget))

/-- Also a column reports an index that names no row with the number of rows. -/
theorem exists_column_of_outside (h : t.Holds n cs) (hname : name ∈ t.columnNames)
    (hi : ¬(0 ≤ i ∧ i < t.rowCount)) :
    ∃ c, t.column name = .ok c ∧ c.value i = .error (.indexOutOfBounds i t.rowCount) := by
  obtain ⟨c, hc, rfl⟩ := h.mem_columnNames_iff.1 hname
  have hlength : c.length = t.rowCount := (h.length_eq c hc).trans h.rowCount_eq.symm
  refine ⟨c, h.column_eq_ok_iff.2 ⟨hc, rfl⟩, ?_⟩
  rw [← hlength] at hi ⊢
  exact Column.value_of_outside hi

end Holds

/-- A name that no column has is refused by the table and by all of its rows. An index is refused by
the table and by all of its columns unless it is that of a row; then all ways to read the row and
its cells lead to the same values. -/
theorem cells_read_alike (ht : Reachable (.table t)) (i : Int) :
    (∀ name, name ∉ t.columnNames → t.column name = .error (.missingColumns [name])) ∧
    (¬(0 ≤ i ∧ i < t.rowCount) →
      t.row i = .error (.indexOutOfBounds i t.rowCount) ∧
      ∀ name ∈ t.columnNames, ∃ c, t.column name = .ok c ∧
        c.value i = .error (.indexOutOfBounds i t.rowCount)) ∧
    (0 ≤ i → i < t.rowCount → ∃ r, t.RowAt i r ∧
      (∀ name ∈ t.columnNames, ∃ v, t.CellAt i r name v) ∧
      ∀ name, name ∉ t.columnNames → r.value name = .error (.missingColumns [name])) := by
  obtain ⟨n, cs, h⟩ := ht.sound
  refine ⟨fun name => column_of_notMem, fun hi => ⟨row_of_outside hi, fun name hname =>
    h.exists_column_of_outside hname hi⟩, fun hi hlt => ?_⟩
  obtain ⟨k, rfl⟩ := Int.eq_ofNat_of_zero_le hi
  have hk : k < n := by
    rw [h.rowCount_eq] at hlt
    omega
  -- each column has a value in the row, and these values decide on the row and all of its cells
  obtain ⟨cell, hcell⟩ := h.exists_cells hk
  refine ⟨⟨t.schema, cs.map cell⟩, h.rowAt hk hcell, fun name hname => ?_, fun name hname => ?_⟩
  · obtain ⟨c, hc, rfl⟩ := h.mem_columnNames_iff.1 hname
    exact ⟨cell c, h.cellAt hcell hc⟩
  · rw [Row.value, Schema.index_of_notMem hname, error_bind]

/-- The last of three rows, and the indices next to the first and the last one. -/
theorem cells_read_alike_scores : ∃ t r, ofFrame .scores = .ok t ∧ t.row 2 = .ok r ∧
    r.values = [.string "bob", .null] ∧ t.CellAt 2 r "name" (.string "bob") ∧
    t.row 3 = .error (.indexOutOfBounds 3 3) ∧ t.row (-1) = .error (.indexOutOfBounds (-1) 3) := by
  obtain ⟨t, r, ht, hrow, hvalues, hname, hcount⟩ : ∃ t r, ofFrame .scores = .ok t ∧
      t.row 2 = .ok r ∧ r.values = [.string "bob", .null] ∧ r.value "name" = .ok (.string "bob") ∧
      t.rowCount = 3 := ⟨_, _, rfl, rfl, rfl, rfl, rfl⟩
  have hr : Reachable (.table t) := .ofFrame ht
  have hmem : "name" ∈ t.columnNames := by
    cases ht
    decide
  obtain ⟨q, hq, hcells, -⟩ := (cells_read_alike hr 2).2.2 (by decide) (by omega)
  obtain rfl : r = q := Except.ok.inj (hrow.symm.trans hq.row)
  obtain ⟨v, hv⟩ := hcells "name" hmem
  obtain rfl : .string "bob" = v := Except.ok.inj (hname.symm.trans hv.value)
  obtain ⟨habove, -⟩ := (cells_read_alike hr 3).2.1 (by omega)
  obtain ⟨hbelow, -⟩ := (cells_read_alike hr (-1)).2.1 (by omega)
  rw [hcount] at habove hbelow
  exact ⟨t, r, ht, hrow, hvalues, hv, habove, hbelow⟩

end Table

end Tabula
