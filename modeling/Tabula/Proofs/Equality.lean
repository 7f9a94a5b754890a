import Tabula.Proofs.Agreement
import Tabula.Proofs.Order

/-!
# Equality of tables

Tables are compared by their schemas, their numbers of rows and their values, name by name. On
tables that agree with themselves this is equality column by column, and equality cell by cell.

* `Column.beq_of_forall₂`, `Column.entry_and_values_of_beq` — equality of columns.
* `Table.Holds.equal_of_forall₂` — tables whose columns are equal one by one are equal.
* `Table.SameContent` — equality cell by cell, and `Table.Holds.equal_iff_sameContent`.
-/

namespace Tabula

variable {t u : Table} {n k : Nat} {cs ds : List Column} {c d : Column} {vs ws : List Value}
  {name : String}

/-! ### Columns -/

namespace Column

/-- Columns are equal if their names and types are and their values are equal one by one. -/
theorem beq_of_forall₂ (hn : c.name = d.name) (ht : c.type = d.type) (hvs : c.values = .ok vs)
    (hws : d.values = .ok ws) (h : List.Forall₂ (fun v w => (v == w) = true) vs ws) :
    (c == d) = true := by
  show c.equal d = true
  unfold equal
  rw [hn, ht, hvs, hws, beq_self_eq_true, beq_self_eq_true]
  exact Value.list_beq_iff_forall₂.2 h

/-- A column in canonical storage equals itself. -/
theorem Canonical.beq_self (h : c.Canonical) : (c == c) = true := by
  obtain ⟨vs, hvs, -⟩ := h.exists_values
  exact beq_of_forall₂ rfl rfl hvs hvs (List.forall₂_same.2 fun v _ => BEq.rfl)

/-- Equal columns have one name and one type, and equal values. -/
theorem entry_and_values_of_beq (h : (c == d) = true) : c.entry = d.entry ∧
    ∃ vs ws, c.values = .ok vs ∧ d.values = .ok ws ∧ (vs == ws) = true := by
  change c.equal d = true at h
  unfold equal at h
  rw [Bool.and_eq_true, Bool.and_eq_true] at h
  obtain ⟨⟨hn, ht⟩, hv⟩ := h
  refine ⟨Prod.ext (eq_of_beq hn) (eq_of_beq ht), ?_⟩
  split at hv
  · next vs ws hvs hws => exact ⟨vs, ws, hvs, hws, hv⟩
  · cases hv

/-- Equality of columns holds in both directions. -/
theorem beq_symm (h : (c == d) = true) : (d == c) = true := by
  obtain ⟨hentry, vs, ws, hvs, hws, hv⟩ := entry_and_values_of_beq h
  obtain ⟨hn, ht⟩ := Prod.mk.inj hentry
  have hvw : List.Forall₂ (fun v w => (v == w) = true) vs ws := Value.list_beq_iff_forall₂.1 hv
  exact beq_of_forall₂ hn.symm ht.symm hws hvs (hvw.imp fun _ _ h => BEq.symm h).flip

end Column

/-! ### Tables -/

namespace Table

theorem columnValues_eq_ok_iff :
    t.columnValues name = .ok vs ↔ ∃ c, t.column name = .ok c ∧ c.values = .ok vs :=
  bind_eq_ok_iff

/-- Tables are equal if their schemas and numbers of rows are and their values are equal, column by
column and one by one. -/
theorem equal_iff : (t == u) = true ↔
    t.schema = u.schema ∧ t.rowCount = u.rowCount ∧ ∀ name ∈ t.columnNames,
      ∃ vs ws, t.columnValues name = .ok vs ∧ u.columnValues name = .ok ws ∧
        List.Forall₂ (fun v w => (v == w) = true) vs ws := by
  show t.equal u = true ↔ _
  unfold equal
  rw [Bool.and_eq_true, Bool.and_eq_true, List.all_eq_true, decide_eq_true_eq, decide_eq_true_eq,
    and_assoc]
  -- the schemas and the numbers of rows are compared as they are, the columns by their values
  refine and_congr_right fun _ => and_congr_right fun _ => forall₂_congr fun name _ => ?_
  refine ⟨?_, ?_⟩
  · intro h
    split at h
    · next vs ws hvs hws => exact ⟨vs, ws, hvs, hws, Value.list_beq_iff_forall₂.1 h⟩
    · cases h
  · rintro ⟨vs, ws, hvs, hws, h⟩
    rw [hvs, hws]
    exact Value.list_beq_iff_forall₂.2 h

/-- If the columns of two tables are equal one by one, equal values are found under each name. -/
theorem Holds.columnValues_of_forall₂ (ht : t.Holds n cs) (hu : u.Holds n ds)
    (h : List.Forall₂ (fun c d => (c == d) = true) cs ds) (hname : name ∈ t.columnNames) :
    ∃ vs ws, t.columnValues name = .ok vs ∧ u.columnValues name = .ok ws ∧ (vs == ws) = true := by
  obtain ⟨c, hc, hcn⟩ := ht.mem_columnNames_iff.1 hname
  obtain ⟨d, hd, hcd⟩ := forall₂_exists_right h hc
  obtain ⟨hentry, vs, ws, hvs, hws, hv⟩ := Column.entry_and_values_of_beq hcd
  have hdn : d.name = name := (congrArg Prod.fst hentry).symm.trans hcn
  refine ⟨vs, ws, ?_, ?_, hv⟩
  · exact columnValues_eq_ok_iff.2 ⟨c, ht.column_eq_ok_iff.2 ⟨hc, hcn⟩, hvs⟩
  · exact columnValues_eq_ok_iff.2 ⟨d, hu.column_eq_ok_iff.2 ⟨hd, hdn⟩, hws⟩

/-- Tables whose columns are equal one by one are equal. -/
theorem Holds.equal_of_forall₂ (ht : t.Holds n cs) (hu : u.Holds n ds)
    (h : List.Forall₂ (fun c d => (c == d) = true) cs ds) : (t == u) = true := by
  -- the schemas are lists of names and types, and equal columns agree in these
  have hschema : t.schema = u.schema := by
    refine Schema.ext_columns ?_
    rw [ht.columns_eq, hu.columns_eq]
    refine List.forall₂_eq_eq_eq ▸ ?_
    rw [List.forall₂_map_left_iff, List.forall₂_map_right_iff]
    exact h.imp fun c d hcd => (Column.entry_and_values_of_beq hcd).1
  have hrows : t.rowCount = u.rowCount := ht.rowCount_eq.trans hu.rowCount_eq.symm
  refine equal_iff.2 ⟨hschema, hrows, fun name hname => ?_⟩
  obtain ⟨vs, ws, hvs, hws, hv⟩ := ht.columnValues_of_forall₂ hu h hname
  exact ⟨vs, ws, hvs, hws, Value.list_beq_iff_forall₂.1 hv⟩

theorem Holds.beq_self (h : t.Holds n cs) : (t == t) = true :=
  h.equal_of_forall₂ h (List.forall₂_same.2 fun c hc => (h.canonical c hc).beq_self)

/-! ### Cells -/

/-- The value in a row of the column with the name. -/
def cell (t : Table) (name : String) (k : Nat) : Except Error Value := do
  (← t.column name).value k

/-- The tables have the same names and types in the same order, as many rows, and equal values in
every cell. -/
structure SameContent (t u : Table) : Prop where
  columns_eq : t.schema.columns = u.schema.columns
  rowCount_eq : t.rowCount = u.rowCount
  cells : ∀ name ∈ t.columnNames, ∀ k < t.rowCount,
    ∃ v w, t.cell name k = .ok v ∧ u.cell name k = .ok w ∧ (v == w) = true

/-- The values of a column are its cells, one for each row. -/
theorem Holds.columnValues_spec (h : t.Holds n cs) {vs : List Value}
    (hvs : t.columnValues name = .ok vs) :
    vs.length = n ∧ ∀ k v, t.cell name k = .ok v ↔ vs[k]? = some v := by
  obtain ⟨c, hc, hvs⟩ := columnValues_eq_ok_iff.1 hvs
  have hmem : c ∈ cs := (h.column_eq_ok_iff.1 hc).1
  refine ⟨(Series.values_spec hvs).2.1.trans (h.length_eq c hmem), fun k v => ?_⟩
  rw [cell, hc, ok_bind, Column.value_eq_ok_iff hvs]

/-- Every column of such a table can be read. -/
theorem Holds.exists_columnValues (h : t.Holds n cs) (hname : name ∈ t.columnNames) :
    ∃ vs, t.columnValues name = .ok vs := by
  obtain ⟨c, hc, rfl⟩ := h.mem_columnNames_iff.1 hname
  obtain ⟨vs, hvs, -⟩ := (h.canonical c hc).exists_values
  exact ⟨vs, columnValues_eq_ok_iff.2 ⟨c, h.column_eq_ok_iff.2 ⟨hc, rfl⟩, hvs⟩⟩

/-- The comparison of tables, which goes column by column, says whether their content is the
same. -/
theorem Holds.equal_iff_sameContent (ht : t.Holds n cs) (hu : u.Holds k ds) :
    (t == u) = true ↔ t.SameContent u := by
  rw [equal_iff]
  refine ⟨?_, ?_⟩
  · rintro ⟨hschema, hrows, hvalues⟩
    refine ⟨congrArg Schema.columns hschema, hrows, ?_⟩
    intro name hname j hj
    -- the cell of a row is the value at its place in the column
    obtain ⟨vs, ws, hvs, hws, hvw⟩ := hvalues name hname
    obtain ⟨hvl, hvc⟩ := ht.columnValues_spec hvs
    obtain ⟨hwl, hwc⟩ := hu.columnValues_spec hws
    have hjv : j < vs.length := by
      rwa [hvl, ← ht.rowCount_eq]
    have hjw : j < ws.length := by
      rwa [← hvw.length_eq]
    exact ⟨vs[j], ws[j], (hvc j _).2 (List.getElem?_eq_getElem hjv),
      (hwc j _).2 (List.getElem?_eq_getElem hjw), hvw.get hjv hjw⟩
  · rintro ⟨hcols, hrows, hcells⟩
    -- the positions of the names follow from their order, so the columns decide the schema
    have hschema : t.schema = u.schema := Schema.ext_columns hcols
    refine ⟨hschema, hrows, ?_⟩
    intro name hname
    have hname' : name ∈ u.columnNames := by
      rwa [columnNames, ← hschema]
    obtain ⟨vs, hvs⟩ := ht.exists_columnValues hname
    obtain ⟨ws, hws⟩ := hu.exists_columnValues hname'
    obtain ⟨hvl, hvc⟩ := ht.columnValues_spec hvs
    obtain ⟨hwl, hwc⟩ := hu.columnValues_spec hws
    refine ⟨vs, ws, hvs, hws, List.forall₂_iff_get.2 ⟨?_, fun j hjv hjw => ?_⟩⟩
    · rw [hvl, hwl, ← ht.rowCount_eq, ← hu.rowCount_eq, hrows]
    · -- every place of the column is a row
      have hj : j < t.rowCount := by
        rwa [ht.rowCount_eq, ← hvl]
      obtain ⟨v, w, hv, hw, hvw⟩ := hcells name hname j hj
      rw [hvc, List.getElem?_eq_some_iff] at hv
      rw [hwc, List.getElem?_eq_some_iff] at hw
      obtain ⟨_, rfl⟩ := hv
      obtain ⟨_, rfl⟩ := hw
      exact hvw

end Table

end Tabula
