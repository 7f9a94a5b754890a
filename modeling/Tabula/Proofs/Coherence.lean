import Tabula.Proofs.Reachable

/-!
# Coherence of every table

A table keeps what it knows of its columns twice, in its schema and in its frame, and every call
that makes a table writes both. On all tables that can be reached they say the same, whatever calls
were made and in whatever order, so that nothing that is read by way of both can fail.

* `Table.Coherent` — schema and frame say the same.
* `Table.KeepsRows` — calls that change columns leave the number of rows alone.
* `Table.Readable` — columns and rows can be read, one by one and all at once.
* `Table.invariant_of_reachable` — all of this holds of every table that can be reached.
-/

namespace Tabula

namespace Table

variable {t u : Table} {n : Nat} {cs : List Column}

/-- The schema and the frame of the table say the same. -/
structure Coherent (t : Table) : Prop where
  /-- The frame has the names of the schema, in order. -/
  names_eq : t.frame.names = t.schema.names
  nodup : t.schema.names.Nodup
  /-- Every name is noted at the position where it stands. -/
  position_iff : ∀ name i,
    t.schema.positions.lookup name = some i ↔ t.schema.names[i]? = some name
  /-- Nothing else is noted. -/
  noted : ∀ p ∈ t.schema.positions, p.1 ∈ t.schema.names
  /-- Every series is stored as its column type asks for. -/
  dtype_eq : List.Forall₂ (fun s type => s.dtype = type.dtype) t.frame.series t.schema.types
  /-- Every series has one cell for each row. -/
  length_eq : ∀ s ∈ t.frame.series, s.length = t.rowCount

/-- Calls that change the columns of the table leave the number of rows alone, also if no column is
left. -/
structure KeepsRows (t : Table) : Prop where
  rename : ∀ old new u, t.rename old new = .ok u → u.rowCount = t.rowCount
  drop : ∀ names u, t.drop names = .ok u → u.rowCount = t.rowCount
  keep : ∀ names u, t.keep names = .ok u → u.rowCount = t.rowCount
  replace : ∀ c u, Reachable (.column c) → t.replace c = .ok u → u.rowCount = t.rowCount
  transform : ∀ e name u, Encoder.transform e t name = .ok u → u.rowCount = t.rowCount
  inverse : ∀ e name u, Encoder.inverse e t name = .ok u → u.rowCount = t.rowCount
  fitTransform : ∀ e names u e', (Encoder.fitTransform t names).run.run e = (.ok u, e') →
    u.rowCount = t.rowCount

/-- The columns and the rows of the table can be read, one by one and all at once. -/
structure Readable (t : Table) : Prop where
  column : ∀ name ∈ t.columnNames, ∃ c, t.column name = .ok c
  columns : ∃ cs, t.columns = .ok cs
  row : ∀ i : Int, 0 ≤ i → i < t.rowCount → ∃ r, t.row i = .ok r
  rows : ∀ r ∈ t.rows, ∃ row, r = .ok row
  toRows : ∃ rs, t.toRows = .ok rs

namespace Holds

theorem coherent (h : t.Holds n cs) : t.Coherent := by
  have hdtype : List.Forall₂ (fun s type => s.dtype = type.dtype) t.frame.series
      t.schema.types := by
    -- series and types are both read off the one list of columns
    have htypes : t.schema.types = cs.map Column.type := by
      rw [Schema.types, h.columns_eq, List.map_map]
      rfl
    rw [h.series_eq, htypes, List.forall₂_map_left_iff, List.forall₂_map_right_iff,
      List.forall₂_same]
    exact fun c hc => (h.canonical c hc).dtype_eq
  refine ⟨?_, t.schema.nodup, fun _ _ => Schema.index?_eq_some_iff, ?_, hdtype, ?_⟩
  · rw [h.frame_names_eq]
    exact h.columnNames_eq.symm
  · intro p hp
    -- the positions are the numbered names themselves
    rw [t.schema.positions_eq, List.mem_reverse] at hp
    exact List.fst_mem_of_mem_zipIdx hp
  · intro s hs
    rw [h.series_eq] at hs
    obtain ⟨c, hc, rfl⟩ := List.mem_map.1 hs
    rw [h.rowCount_eq]
    exact h.length_eq c hc

theorem keepsRows (h : t.Holds n cs) : t.KeepsRows := by
  -- a table that consists of some columns over `n` rows has `n` rows
  have hrows : ∀ {u : Table} {ds : List Column}, u.Holds n ds → u.rowCount = t.rowCount :=
    fun hu => hu.rowCount_eq.trans h.rowCount_eq.symm
  refine ⟨?_, ?_, ?_, ?_, ?_, ?_, ?_⟩
  · intro old new u hu
    obtain ⟨-, ⟨-, rfl⟩ | ⟨-, hu⟩⟩ := h.of_rename hu
    · rfl
    · exact hrows hu
  · exact fun names u hu => hrows (h.of_drop hu).2
  · exact fun names u hu => hrows (h.of_keep hu).2
  · exact fun c u hc hu => hrows (h.of_replace hc.sound hu).2.2
  · intro e name u hu
    obtain ⟨ds, hds⟩ := Encoder.exists_holds_of_transform h hu
    exact hrows hds
  · intro e name u hu
    obtain ⟨ds, hds⟩ := Encoder.exists_holds_of_inverse h hu
    exact hrows hds
  · intro e names u e' hu
    obtain ⟨ds, hds⟩ := Encoder.exists_holds_of_fitTransform h hu
    exact hrows hds

theorem readable (h : t.Holds n cs) : t.Readable := by
  -- rows are read by signed indices, but those in range are natural numbers
  have hrow : ∀ i : Nat, i < n → ∃ r, t.row i = .ok r := by
    intro i hi
    obtain ⟨vs, hr, -⟩ := h.exists_row hi
    exact ⟨_, hr⟩
  refine ⟨?_, ⟨cs, h.columns_eq_ok⟩, ?_, ?_, h.exists_toRows⟩
  · intro name hname
    obtain ⟨c, hc, hn⟩ := h.mem_columnNames_iff.1 hname
    exact ⟨c, h.column_eq_ok_iff.2 ⟨hc, hn⟩⟩
  · intro i hi hlt
    rw [h.rowCount_eq] at hlt
    obtain ⟨k, rfl⟩ := Int.eq_ofNat_of_zero_le hi
    exact hrow k (by omega)
  · intro r hr
    obtain ⟨i, hi, rfl⟩ := List.mem_map.1 hr
    rw [List.mem_range, h.rowCount_eq] at hi
    exact hrow i hi

end Holds

/-- On every table that can be reached, schema and frame say the same, calls that change columns
leave the number of rows alone, and everything can be read. -/
theorem invariant_of_reachable (h : Reachable (.table t)) :
    t.Coherent ∧ t.KeepsRows ∧ t.Readable := by
  obtain ⟨n, cs, hh⟩ := h.sound
  exact ⟨hh.coherent, hh.keepsRows, hh.readable⟩

/-- A table of two columns, and the table that is left once both are dropped: it still has its three
rows. -/
theorem invariant_dropped_scores : ∃ t u, ofFrame .scores = .ok t ∧
    t.drop ["name", "score"] = .ok u ∧
      (Reachable (.table t) ∧ t.rowCount = 3 ∧ t.columnNames = ["name", "score"] ∧
        t.Coherent ∧ t.KeepsRows ∧ t.Readable) ∧
      Reachable (.table u) ∧ u.rowCount = 3 ∧ u.columnCount = 0 ∧ u.Coherent ∧ u.KeepsRows ∧
        u.Readable := by
  obtain ⟨t, u, ht, hu, hrows, hnames, hrows', hcols⟩ : ∃ t u, ofFrame .scores = .ok t ∧
      t.drop ["name", "score"] = .ok u ∧ t.rowCount = 3 ∧ t.columnNames = ["name", "score"] ∧
        u.rowCount = 3 ∧ u.columnCount = 0 :=
    ⟨_, _, rfl, rfl, rfl, rfl, rfl, rfl⟩
  have ht' : Reachable (.table t) := .ofFrame ht
  have hu' : Reachable (.table u) := .drop ht' hu
  exact ⟨t, u, ht, hu, ⟨ht', hrows, hnames, invariant_of_reachable ht'⟩, hu', hrows', hcols,
    invariant_of_reachable hu'⟩

end Table

end Tabula
