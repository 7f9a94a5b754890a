import Tabula.Proofs.Reachable

/-!
# Replacing columns

Replacing a column writes one field of a table, and a column that is found by its name is this field
read back. The type is written to the schema, at the position of the name, and the cells to the
frame, at the series of that name; the laws of reading and writing say that the two hit the same
column, whatever the types are: what was written is read, nothing else changes, writing what was
read changes nothing, of two writes of one column the last one counts, and writes of different
columns commute. A column that does not fit is refused and never adapted.

* `Table.Replaced` — a column has taken its place.
* `Holds.replace_replace`, `Holds.replace_comm` — two columns that are replaced one after the other.
* `Table.ReplacesByName` — the laws, and `Table.replacing_lawful` — they hold for every table.
-/

namespace Tabula

variable {t u v : Table} {n : Nat} {cs : List Column} {x y : Column}

namespace Table

/-- The column has taken the place of the one of its name, and nothing else has changed. -/
structure Replaced (x : Column) (t u : Table) : Prop where
  columnNames_eq : u.columnNames = t.columnNames
  rowCount_eq : u.rowCount = t.rowCount
  /-- The column itself, its type included. -/
  column_self : u.column x.name = .ok x
  column_of_ne : ∀ name, name ≠ x.name → u.column name = t.column name

namespace Holds

theorem exists_replaced (h : t.Holds n cs) (hx : x.Canonical) (hmem : x.name ∈ t.columnNames)
    (hl : x.length = n) : ∃ u, t.replace x = .ok u ∧ t.Replaced x u := by
  obtain ⟨u, hu, huh⟩ := h.exists_replace hx hmem hl
  obtain ⟨c, hc, hcn⟩ := h.mem_columnNames_iff.1 hmem
  exact ⟨u, hu, h.columnNames_replaced huh, huh.rowCount_eq.trans h.rowCount_eq.symm,
    huh.column_replaced hc hcn, fun _ hname => h.column_of_ne huh hname⟩

/-- A column is refused for its name exactly if there is none of that name. -/
theorem replace_eq_missing_iff (h : t.Holds n cs) (hx : x.Canonical) :
    t.replace x = .error (.missingColumns [x.name]) ↔ x.name ∉ t.columnNames := by
  refine ⟨fun herr => ?_, replace_of_notMem⟩
  obtain ⟨hname, -⟩ | ⟨-, -, hr⟩ | ⟨-, -, u, hr, -⟩ := h.replace_cases hx
  · exact hname
  · cases hr.symm.trans herr
  · cases hr.symm.trans herr

/-- An existing column is refused for its length exactly if it has not one cell for each row. -/
theorem replace_eq_mismatch_iff (h : t.Holds n cs) (hx : x.Canonical)
    (hmem : x.name ∈ t.columnNames) :
    t.replace x = .error (.lengthMismatch x.name t.rowCount x.length) ↔
      x.length ≠ t.rowCount := by
  refine ⟨fun herr => ?_, replace_of_length_ne hmem⟩
  obtain ⟨habsent, -⟩ | ⟨-, hl, -⟩ | ⟨-, -, u, hr, -⟩ := h.replace_cases hx
  · exact absurd hmem habsent
  · rwa [h.rowCount_eq]
  · cases hr.symm.trans herr

/-! ### Two columns -/

/-- Of two columns of one name and length, the last one counts, also if they are refused. -/
theorem replace_replace (h : t.Holds n cs) (hx : x.Canonical) (hy : y.Canonical)
    (hn : y.name = x.name) (hl : y.length = x.length) :
    (t.replace x >>= fun u => u.replace y) = t.replace y := by
  by_cases hmem : x.name ∈ t.columnNames
  · have hmem' : y.name ∈ t.columnNames := hn ▸ hmem
    by_cases hlx : x.length = n
    · obtain ⟨u, hu, huh⟩ := h.exists_replace hx hmem hlx
      obtain ⟨v, hv, hvh⟩ := huh.exists_replace hy (h.columnNames_replaced huh ▸ hmem')
        (hl.trans hlx)
      obtain ⟨w, hw, hwh⟩ := h.exists_replace hy hmem' (hl.trans hlx)
      -- the first column is gone once the second one has come
      rw [List.map_map, Column.replacedBy_comp_replacedBy hn] at hvh
      rw [hu, ok_bind, hv, hw, hvh.unique hwh]
    · have hlt : x.length ≠ t.rowCount := h.rowCount_eq ▸ hlx
      rw [replace_of_length_ne hmem hlt, replace_of_length_ne hmem' (hl ▸ hlt), hn, hl, error_bind]
  · rw [replace_of_notMem hmem, replace_of_notMem (hn ▸ hmem), hn, error_bind]

/-- Columns of different names can also be replaced in the other order. -/
theorem replace_comm (h : t.Holds n cs) (hx : x.Canonical) (hy : y.Canonical)
    (hne : x.name ≠ y.name) (hv : (t.replace x >>= fun u => u.replace y) = .ok v) :
    (t.replace y >>= fun u => u.replace x) = .ok v := by
  obtain ⟨u, hu, hv⟩ := bind_eq_ok_iff.1 hv
  obtain ⟨hmem, hlx, huh⟩ := h.of_replace hx hu
  obtain ⟨hmem', hly, hvh⟩ := huh.of_replace hy hv
  rw [h.columnNames_replaced huh] at hmem'
  obtain ⟨u', hu', huh'⟩ := h.exists_replace hy hmem' hly
  obtain ⟨v', hv', hvh'⟩ := huh'.exists_replace hx (h.columnNames_replaced huh' ▸ hmem) hlx
  rw [List.map_map, Column.replacedBy_comm hne, ← List.map_map] at hvh'
  rw [hu', ok_bind, hv', hvh'.unique hvh]

end Holds

/-! ### The laws -/

/-- Replacing writes the column of a name, as reading by the name reads it. -/
structure ReplacesByName (t : Table) : Prop where
  /-- First the name of a column decides whether it is refused. -/
  missing_iff : ∀ x, Reachable (.column x) →
    (t.replace x = .error (.missingColumns [x.name]) ↔ x.name ∉ t.columnNames)
  /-- Then its length does, also if this is one. -/
  mismatch_iff : ∀ x, Reachable (.column x) → x.name ∈ t.columnNames →
    (t.replace x = .error (.lengthMismatch x.name t.rowCount x.length) ↔ x.length ≠ t.rowCount)
  replaced : ∀ x, Reachable (.column x) → x.name ∈ t.columnNames → x.length = t.rowCount →
    ∃ u, t.replace x = .ok u ∧ t.Replaced x u
  replace_column : ∀ name ∈ t.columnNames, ∃ c, t.column name = .ok c ∧ t.replace c = .ok t
  replace_replace : ∀ x y, Reachable (.column x) → Reachable (.column y) → y.name = x.name →
    y.length = x.length → (t.replace x >>= fun u => u.replace y) = t.replace y
  replace_comm : ∀ x y, Reachable (.column x) → Reachable (.column y) → x.name ≠ y.name → ∀ v,
    (t.replace x >>= fun u => u.replace y) = .ok v ↔
      (t.replace y >>= fun u => u.replace x) = .ok v

/-- On every table that can be reached, replacing columns of any type obeys the laws of reading and
writing. -/
theorem replacing_lawful (ht : Reachable (.table t)) : t.ReplacesByName := by
  obtain ⟨n, cs, h⟩ := ht.sound
  refine ⟨fun x hx => h.replace_eq_missing_iff hx.sound,
    fun x hx => h.replace_eq_mismatch_iff hx.sound,
    fun x hx hmem hl => h.exists_replaced hx.sound hmem (hl.trans h.rowCount_eq),
    fun name hname => ?_, fun x y hx hy => h.replace_replace hx.sound hy.sound,
    fun x y hx hy hne v => ⟨h.replace_comm hx.sound hy.sound hne,
      h.replace_comm hy.sound hx.sound (Ne.symm hne)⟩⟩
  obtain ⟨c, hc, hcn⟩ := h.mem_columnNames_iff.1 hname
  exact ⟨c, h.column_eq_ok_iff.2 ⟨hc, hcn⟩, h.replace_self hc⟩

/-- Numbers give way to texts, and a single value is not repeated to fit. -/
theorem replacing_lawful_scores : ∃ t u x y, ofFrame .scores = .ok t ∧
    Column.ofValues "score" .string [.string "low", .null, .string "high"] = .ok x ∧
    t.replace x = .ok u ∧ u.column "score" = .ok x ∧ u.columnNames = ["name", "score"] ∧
    Column.ofValues "score" .boolean [.boolean true] = .ok y ∧
    t.replace y = .error (.lengthMismatch "score" 3 1) := by
  obtain ⟨t, x, y, ht, hx, hy, hxn, hxl, hyn, hyl, hrows, hnames⟩ : ∃ t x y,
      ofFrame .scores = .ok t ∧
      Column.ofValues "score" .string [.string "low", .null, .string "high"] = .ok x ∧
      Column.ofValues "score" .boolean [.boolean true] = .ok y ∧ x.name = "score" ∧
      x.length = 3 ∧ y.name = "score" ∧ y.length = 1 ∧ t.rowCount = 3 ∧
      t.columnNames = ["name", "score"] := ⟨_, _, _, rfl, rfl, rfl, rfl, rfl, rfl, rfl, rfl, rfl⟩
  have hlaws : t.ReplacesByName := replacing_lawful (.ofFrame ht)
  have hmem : "score" ∈ t.columnNames := by simp [hnames]
  obtain ⟨u, hu, hreplaced⟩ :=
    hlaws.replaced x (.ofValues hx) (hxn ▸ hmem) (hxl.trans hrows.symm)
  have hrefused := (hlaws.mismatch_iff y (.ofValues hy) (hyn ▸ hmem)).2 (by omega)
  rw [hyn, hyl, hrows] at hrefused
  exact ⟨t, u, x, y, ht, hx, hu, hxn ▸ hreplaced.column_self, hreplaced.columnNames_eq.trans hnames,
    hy, hrefused⟩

end Table

end Tabula
