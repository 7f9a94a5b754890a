import Tabula.Proofs.Failures
import Tabula.Proofs.Reference

/-!
# Encoding and reshaping

Encoding or decoding a column reads one cell at a time and writes the cell in its place. So it does
not matter whether a table is encoded before or after it is reshaped: by picking rows in any order,
by choosing columns, by renaming another column, or by encoding another column. Where reshaping
fails, it fails for both tables and in the same way.

* `Table.pick` — the table of some rows of a table.
* `Column.PickedFrom`, `Table.Holds.pick_cases` — what such a table holds.
* `Mapping.Cellwise` — operations on columns that read one cell at a time.
* `Commutes` — an operation and a way of reshaping that may be exchanged.
* `Encoder.Applied` — a table and what an operation on one of its columns made of it.
* `Encoder.recoding_commutes` — encoding and decoding commute with all ways of reshaping.
-/

namespace Tabula

variable {t u w : Table} {c d b : Column} {cs es : List Column} {n k : Nat} {i : Int}
  {indices : List Int} {m : Mapping} {e : Encoder} {name : String}
  {recode : Mapping → Column → Except Error Column}

/-! ### Changes of different columns -/

namespace Column

/-- A column may be replaced before or after another one gets a name that no column has. -/
theorem renamed_replacedBy {old new : String} (hold : d.name ≠ old) (hnew : d.name ≠ new)
    (b : Column) : (d.replacedBy b).renamed old new = d.replacedBy (b.renamed old new) := by
  by_cases hd : b.name = d.name
  · have hb : b.name ≠ old := fun hb => hold (hd.symm.trans hb)
    rw [replacedBy_of_eq hd, renamed_of_ne hold, renamed_of_ne hb, replacedBy_of_eq hd]
  · rw [replacedBy_of_ne hd]
    by_cases hb : b.name = old
    · rw [renamed_of_eq hb, replacedBy_of_ne (Ne.symm hnew)]
    · rw [renamed_of_ne hb, replacedBy_of_ne hd]

/-! ### Picking cells -/

/-- The column holds the cells of another one at the indices, in their order. -/
structure PickedFrom (indices : List Int) (c d : Column) : Prop where
  canonical : d.Canonical
  name_eq : d.name = c.name
  type_eq : d.type = c.type
  values_eq : d.values = indices.mapM c.value

namespace PickedFrom

/-- What is picked from a column is determined by the indices. -/
theorem unique {d' : Column} (h : PickedFrom indices c d) (h' : PickedFrom indices c d') :
    d = d' := by
  obtain ⟨vs, hvs, -⟩ := h.canonical.exists_values
  exact h.canonical.ext_values h'.canonical (h.name_eq.trans h'.name_eq.symm)
    (h.type_eq.trans h'.type_eq.symm) hvs (by rw [h'.values_eq, ← h.values_eq, hvs])

/-- The picked cells can be read, and each is the cell at its index. -/
theorem exists_values (h : PickedFrom indices c d) : ∃ vs, d.values = .ok vs ∧
    List.Forall₂ (fun i v => c.value i = .ok v) indices vs := by
  obtain ⟨vs, hvs, -⟩ := h.canonical.exists_values
  exact ⟨vs, hvs, mapM_eq_ok_iff.1 (h.values_eq.symm.trans hvs)⟩

/-- There are as many cells as indices. -/
theorem length_eq (h : PickedFrom indices c d) : d.length = indices.length := by
  obtain ⟨vs, hvs, hcells⟩ := h.exists_values
  rw [hcells.length_eq, (Series.values_spec hvs).2.1]
  rfl

/-- Picking cells of a column that is replaced is replacing the picked cells. -/
theorem replacedBy {x y : Column} (hxy : PickedFrom indices x y) (h : PickedFrom indices c d) :
    PickedFrom indices (c.replacedBy x) (d.replacedBy y) := by
  unfold Column.replacedBy
  rw [hxy.name_eq, h.name_eq]
  split
  · exact h
  · exact hxy

end PickedFrom

/-- Cells can be picked at all indices that are in range, also several times. -/
theorem exists_pickedFrom (hc : c.Canonical) (h : ∀ i ∈ indices, 0 ≤ i ∧ i < c.length) :
    ∃ d, PickedFrom indices c d := by
  obtain ⟨vs, hvs, hlength, haccepts⟩ := hc.exists_values
  -- a signed index in range is the position of a cell
  have hcell : ∀ i ∈ indices, ∃ v, c.value i = .ok v ∧ v ∈ vs := by
    intro i hi
    obtain ⟨h0, hlt⟩ := h i hi
    obtain ⟨j, rfl⟩ := Int.eq_ofNat_of_zero_le h0
    have hj : j < vs.length := by omega
    exact ⟨vs[j], (value_eq_ok_iff hvs).2 (List.getElem?_eq_getElem hj), List.getElem_mem hj⟩
  obtain ⟨ws, hws⟩ := exists_mapM_eq_ok fun i hi => (hcell i hi).imp fun v hv => hv.1
  -- the picked cells are cells of the column, so its type accepts them
  have haccepts' : ∀ w ∈ ws, c.type.accepts w = true := by
    intro w hw
    obtain ⟨i, hi, hiw⟩ := forall₂_exists_left (mapM_eq_ok_iff.1 hws) hw
    obtain ⟨v, hv, hmem⟩ := hcell i hi
    obtain rfl : v = w := Except.ok.inj (hv.symm.trans hiw)
    exact haccepts v hmem
  obtain ⟨s, hs, hn, hsv⟩ := Series.exists_ofValues c.name haccepts'
  exact ⟨⟨c.name, c.type, s⟩, ⟨hn, (Series.values_spec hsv).1⟩, rfl, rfl, hsv.trans hws.symm⟩

end Column

namespace Table

/-- The table of the rows with the indices. -/
def pick (t : Table) (indices : List Int) : Except Error Table := do
  ofRows (← indices.mapM t.row)

/-- The index names no row of a table with that many. -/
def isOutside (n : Nat) (i : Int) : Bool := !decide (0 ≤ i ∧ i < n)

theorem isOutside_eq_true_iff : isOutside n i = true ↔ ¬(0 ≤ i ∧ i < n) := by
  rw [isOutside, Bool.not_eq_true', decide_eq_false_iff_not]

theorem isOutside_eq_false_iff : isOutside n i = false ↔ 0 ≤ i ∧ i < n := by
  rw [isOutside, Bool.not_eq_false', decide_eq_true_iff]

namespace Holds

/-- Rows can be picked by indices within bounds, and each column of the table that they make holds
the cells that are picked from the column in its place. -/
theorem exists_pick (h : t.Holds n cs) (hne : indices ≠ [])
    (hin : ∀ i ∈ indices, 0 ≤ i ∧ i < n) :
    ∃ w es, t.pick indices = .ok w ∧ w.Holds indices.length es ∧
      List.Forall₂ (Column.PickedFrom indices) cs es := by
  obtain ⟨rs, hrs⟩ : ∃ rs, indices.mapM t.row = .ok rs :=
    exists_mapM_eq_ok fun i hi => h.exists_row_of_inside (hin i hi)
  have hrows := mapM_eq_ok_iff.1 hrs
  have hlength : indices.length = rs.length := hrows.length_eq
  obtain ⟨es, hes⟩ : ∃ es, List.Forall₂ (Column.PickedFrom indices) cs es :=
    exists_forall₂ fun c hc =>
      Column.exists_pickedFrom (h.canonical c hc) (by rwa [h.length_eq c hc])
  -- rows of one table agree in their schemas, so they may be put together again
  have hschema : ∀ r ∈ rs, r.schema = t.schema := by
    intro r hr
    obtain ⟨i, -, hi⟩ := forall₂_exists_left hrows hr
    exact (h.row_spec hi).1
  have hentries : t.schema.columns = es.map Column.entry := by
    rw [h.columns_eq, ← List.forall₂_eq_eq_eq, List.forall₂_map_left_iff,
      List.forall₂_map_right_iff]
    exact hes.imp fun c d hcd => Prod.ext hcd.name_eq.symm hcd.type_eq.symm
  have hpicked : ∀ d ∈ es, d.Canonical ∧ d.length = rs.length := by
    intro d hd
    obtain ⟨c, -, hcd⟩ := forall₂_exists_left hes hd
    exact ⟨hcd.canonical, hcd.length_eq.trans hlength⟩
  -- the rows hold, at the position of a column, what is picked from it
  have hvalues : ∀ j d vs, es[j]? = some d → d.values = .ok vs → valuesAt rs j = .ok vs := by
    intro j d vs hd hvs
    obtain ⟨c, hc, hcd⟩ := exists_getElem?_of_forall₂ hes hd
    obtain ⟨ws, hws, hcells⟩ := hcd.exists_values
    obtain rfl : vs = ws := Except.ok.inj (hvs.symm.trans hws)
    refine mapM_eq_ok_iff.2 (forall₂_of_common hrows hcells fun i _ r v hr hv => ?_)
    obtain ⟨w, hw, hwv⟩ := exists_getElem?_of_forall₂ (h.row_spec hr).2.flip hc
    obtain rfl : v = w := Except.ok.inj (hv.symm.trans hwv)
    exact elementAt_eq_ok_iff.2 hw
  obtain ⟨w, hw, hh⟩ := exists_ofAgreeing hentries (fun d hd => (hpicked d hd).1)
    (fun d hd => (hpicked d hd).2) hvalues
  rw [← hlength] at hh
  refine ⟨w, es, ?_, hh, hes⟩
  rw [pick, hrs, ok_bind, ofRows_of_forall_schema hschema, hw]
  -- rows without any index would make the empty table, whatever the columns were
  rintro rfl
  exact hne (List.length_eq_zero_iff.1 hlength)

/-- Rows are picked, or the first index that is out of bounds is reported. -/
theorem pick_cases (h : t.Holds n cs) (hne : indices ≠ []) :
    (∃ i, indices.find? (isOutside n) = some i ∧
      t.pick indices = .error (.indexOutOfBounds i n)) ∨
    indices.find? (isOutside n) = none ∧ (∀ i ∈ indices, 0 ≤ i ∧ i < n) ∧
      ∃ w es, t.pick indices = .ok w ∧ w.Holds indices.length es ∧
        List.Forall₂ (Column.PickedFrom indices) cs es := by
  cases hfind : indices.find? (isOutside n) with
  | some i =>
    refine .inl ⟨i, rfl, ?_⟩
    -- the first index out of range is the one that is reported
    have hrow : t.row i = .error (.indexOutOfBounds i n) := by
      have houtside := isOutside_eq_true_iff.1 (List.find?_some hfind)
      rw [row_of_outside (h.rowCount_eq ▸ houtside), h.rowCount_eq]
    have hrows : indices.mapM t.row = .error (.indexOutOfBounds i n) := by
      refine mapM_eq_error_of_find? (fun j hj => ?_) hfind hrow
      exact h.exists_row_of_inside (isOutside_eq_false_iff.1 hj)
    rw [pick, hrows, error_bind]
  | none =>
    rw [List.find?_eq_none] at hfind
    have hin : ∀ i ∈ indices, 0 ≤ i ∧ i < n :=
      fun i hi => isOutside_eq_false_iff.1 (Bool.eq_false_iff.2 (hfind i hi))
    exact .inr ⟨rfl, hin, h.exists_pick hne hin⟩

end Holds

end Table

/-! ### Operations on columns -/

namespace Mapping

/-- The operation makes each cell of a column from the cell in its place, and a column of the same
name from them. -/
def Cellwise (recode : Mapping → Column → Except Error Column) : Prop :=
  ∃ (type : Mapping → ColumnType) (cell : Mapping → String → Value → Except Error Value),
    ∀ m c, recode m c = do
      Column.ofValues c.name (type m) (← (← c.values).mapM (cell m c.name))

/-- Encoding reads one cell at a time and makes integers. -/
theorem cellwise_encode : Cellwise encode := ⟨fun _ => .integer, encodeCell, fun _ _ => rfl⟩

/-- Decoding reads one cell at a time and makes values of the type of the mapping. -/
theorem cellwise_decode : Cellwise decode := ⟨Mapping.type, decodeCell, fun _ _ => rfl⟩

namespace Cellwise

/-- An operation that reads one cell at a time keeps the name and the length of the column. -/
theorem spec (h : Cellwise recode) (hc : c.Canonical) (hd : recode m c = .ok d) :
    d.Canonical ∧ d.name = c.name ∧ d.length = c.length := by
  obtain ⟨type, cell, hrecode⟩ := h
  obtain ⟨vs, hvs, hlength, -⟩ := hc.exists_values
  rw [hrecode, hvs, ok_bind, Column.ofValues_mapM_eq_ok_iff] at hd
  obtain ⟨hdc, hdn, -, ws, hws, hcells⟩ := hd
  refine ⟨hdc, hdn, ?_⟩
  calc d.length = ws.length := (Series.values_spec hws).2.1.symm
    _ = vs.length := hcells.length_eq.symm
    _ = c.length := hlength

/-- Picking cells before or after the operation is the same. -/
theorem picked (h : Cellwise recode) (hc : c.Canonical) (hd : recode m c = .ok d)
    (hin : ∀ i ∈ indices, 0 ≤ i ∧ i < c.length) (hb : Column.PickedFrom indices c b) :
    ∃ b', recode m b = .ok b' ∧ Column.PickedFrom indices d b' := by
  -- the new column is of the same length, so the same indices are in range
  obtain ⟨hdc, hdn, hdl⟩ := h.spec hc hd
  obtain ⟨b', hb'⟩ := Column.exists_pickedFrom hdc (hdl ▸ hin)
  refine ⟨b', ?_, hb'⟩
  obtain ⟨type, cell, hrecode⟩ := h
  obtain ⟨vs, hvs, -⟩ := hc.exists_values
  obtain ⟨us, hus, hpicked⟩ := hb.exists_values
  obtain ⟨us', hus', hpicked'⟩ := hb'.exists_values
  rw [hrecode, hvs, ok_bind, Column.ofValues_mapM_eq_ok_iff] at hd
  obtain ⟨-, -, hdt, ws, hws, hcells⟩ := hd
  rw [hrecode, hus, ok_bind, Column.ofValues_mapM_eq_ok_iff, hb.name_eq]
  refine ⟨hb'.canonical, hb'.name_eq.trans hdn, hb'.type_eq.trans hdt, us', hus', ?_⟩
  -- at every index the picked cells are those of the two columns
  refine forall₂_of_common hpicked hpicked' fun i hi v w hv hw => ?_
  obtain ⟨j, rfl⟩ := Int.eq_ofNat_of_zero_le (hin i hi).1
  have hvj := (Column.value_eq_ok_iff hvs).1 hv
  have hwj := (Column.value_eq_ok_iff hws).1 hw
  obtain ⟨v', hv', hcell⟩ := exists_getElem?_of_forall₂ hcells hwj
  obtain rfl : v = v' := Option.some.inj (hvj.symm.trans hv')
  exact hcell

end Cellwise

end Mapping

/-! ### Exchanging two operations -/

/-- The operation was applied to the first table, which made the second. It may be exchanged with a
way of reshaping: it makes of the first table reshaped the second one reshaped, and what cannot be
reshaped of the one cannot be of the other, for the same reason. -/
structure Commutes (act reshape : Table → Except Error Table) (t u : Table) : Prop where
  ok : ∀ w, reshape t = .ok w → ∃ w', act w = .ok w' ∧ reshape u = .ok w'
  error : ∀ err, reshape t = .error err → reshape u = .error err

namespace Commutes

variable {act reshape : Table → Except Error Table} {v : Table}

/-- Both ways lead to one table. -/
theorem of_ok (hw : reshape t = .ok w) (hv : act w = .ok v) (hu : reshape u = .ok v) :
    Commutes act reshape t u where
  ok x hx := by
    obtain rfl : w = x := Except.ok.inj (hw.symm.trans hx)
    exact ⟨v, hv, hu⟩
  error err herr := by cases hw.symm.trans herr

/-- Where reshaping fails for both tables, it has to fail in the same way. -/
theorem of_error {err : Error} (ht : reshape t = .error err) (hu : reshape u = .error err) :
    Commutes act reshape t u where
  ok x hx := by cases ht.symm.trans hx
  error err' herr := by rw [hu, ← ht, herr]

/-- What is said of a way of reshaping is said of every other way that does the same to both
tables. -/
theorem congr {reshape' : Table → Except Error Table} (h : Commutes act reshape t u)
    (ht : reshape' t = reshape t) (hu : reshape' u = reshape u) : Commutes act reshape' t u where
  ok x hx := by
    rw [ht] at hx
    rw [hu]
    exact h.ok x hx
  error err herr := by
    rw [ht] at herr
    rw [hu]
    exact h.error err herr

end Commutes

namespace Encoder

/-- An operation on a column by its stored mapping. -/
def apply (recode : Mapping → Column → Except Error Column) (e : Encoder) (t : Table)
    (name : String) : Except Error Table := do
  let c ← t.column name
  t.replace (← recode (← e.mappings.get name) c)

theorem transform_eq_apply : e.transform = e.apply Mapping.encode := rfl

theorem inverse_eq_apply : e.inverse = e.apply Mapping.decode := rfl

/-- The operation made one table of another, by replacing a column. -/
structure Applied (recode : Mapping → Column → Except Error Column) (e : Encoder) (t u : Table)
    (n : Nat) (cs : List Column) (m : Mapping) (c d : Column) : Prop where
  holds : t.Holds n cs
  mem : c ∈ cs
  stored : e.mappings.get? c.name = some m
  recoded : recode m c = .ok d
  canonical : d.Canonical
  name_eq : d.name = c.name
  length_eq : d.length = n
  result : u.Holds n (cs.map d.replacedBy)

/-- An operation that succeeded has found its column and its mapping. -/
theorem exists_applied (hr : Mapping.Cellwise recode) (h : t.Holds n cs)
    (hu : e.apply recode t name = .ok u) :
    ∃ m c d, c.name = name ∧ Applied recode e t u n cs m c d := by
  obtain ⟨c, hc, hrest⟩ := bind_eq_ok_iff.1 hu
  obtain ⟨m, hm, hrest⟩ := bind_eq_ok_iff.1 hrest
  obtain ⟨d, hd, hreplace⟩ := bind_eq_ok_iff.1 hrest
  obtain ⟨hmem, rfl⟩ := h.column_eq_ok_iff.1 hc
  obtain ⟨hdc, hdn, hdl⟩ := hr.spec (h.canonical c hmem) hd
  obtain ⟨-, -, huh⟩ := h.of_replace hdc hreplace
  exact ⟨m, c, d, rfl, h, hmem, MappingStore.get_eq_ok_iff.1 hm, hd, hdc, hdn,
    hdl.trans (h.length_eq c hmem), huh⟩

/-- The operation applied to a table with a column that it makes something of. -/
theorem exists_apply (h : w.Holds k es) (hc : b ∈ es) (hm : e.mappings.get? b.name = some m)
    (hd : recode m b = .ok d) (hdc : d.Canonical) (hdn : d.name = b.name) (hdl : d.length = k) :
    ∃ w', e.apply recode w b.name = .ok w' ∧ w'.Holds k (es.map d.replacedBy) := by
  obtain ⟨w', hw', hh⟩ := h.exists_replace hdc (h.mem_columnNames_iff.2 ⟨b, hc, hdn.symm⟩) hdl
  refine ⟨w', ?_, hh⟩
  rw [apply, h.column_eq_ok_iff.2 ⟨hc, rfl⟩, ok_bind, MappingStore.get_eq_ok_iff.2 hm, ok_bind, hd,
    ok_bind, hw']

namespace Applied

variable {names : List String} {old new : String}

/-- The names are as they were, since the new column takes the place of one of its name. -/
theorem columnNames_eq (h : Applied recode e t u n cs m c d) : u.columnNames = t.columnNames :=
  h.holds.columnNames_replaced h.result

/-- The operation can be read back from what it did. -/
theorem apply_eq (h : Applied recode e t u n cs m c d) : e.apply recode t c.name = .ok u := by
  obtain ⟨v, hv, hvh⟩ :=
    exists_apply h.holds h.mem h.stored h.recoded h.canonical h.name_eq h.length_eq
  rw [hv, hvh.unique h.result]

/-- Picking rows, in any order and as often as one likes. -/
theorem pick (h : Applied recode e t u n cs m c d) (hr : Mapping.Cellwise recode)
    (hne : indices ≠ []) : Commutes (e.apply recode · c.name) (·.pick indices) t u := by
  obtain ⟨i, hi, hpick⟩ | ⟨hnone, hin, w, es, hpick, hw, hes⟩ := h.holds.pick_cases hne
  · -- the bounds are the same for both tables
    obtain ⟨j, hj, hpick'⟩ | ⟨hnone, -⟩ := h.result.pick_cases hne
    · obtain rfl : i = j := Option.some.inj (hi.symm.trans hj)
      exact .of_error hpick hpick'
    · cases hi.symm.trans hnone
  · obtain ⟨w', es', hpick', hw', hes'⟩ := h.result.exists_pick hne hin
    obtain ⟨b, hb, hcb⟩ := forall₂_exists_right hes h.mem
    have hcan : c.Canonical := h.holds.canonical c h.mem
    have hinc : ∀ i ∈ indices, 0 ≤ i ∧ i < c.length := by rwa [h.holds.length_eq c h.mem]
    obtain ⟨b', hb', hdb'⟩ := hr.picked hcan h.recoded hinc hcb
    have hbn : b'.name = b.name := hdb'.name_eq.trans (h.name_eq.trans hcb.name_eq.symm)
    obtain ⟨v, hv, hvh⟩ := exists_apply hw hb (hcb.name_eq ▸ h.stored) hb' hdb'.canonical hbn
      hdb'.length_eq
    -- what is picked from the columns after the replacement is what was picked, replaced
    have hboth : List.Forall₂ (Column.PickedFrom indices) (cs.map d.replacedBy)
        (es.map b'.replacedBy) := by
      rw [List.forall₂_map_left_iff, List.forall₂_map_right_iff]
      exact hes.imp fun x y hxy => hxy.replacedBy hdb'
    have hsame : es' = es.map b'.replacedBy := by
      rw [← List.forall₂_eq_eq_eq]
      exact forall₂_of_common hes' hboth fun x _ y z => Column.PickedFrom.unique
    subst hsame
    obtain rfl : v = w' := hvh.unique hw'
    rw [hcb.name_eq] at hv
    exact .of_ok hpick hv hpick'

/-- Choosing columns by their names, the one of the operation among them. -/
theorem select (h : Applied recode e t u n cs m c d) (p : String → Bool) (hp : p c.name = true) :
    Commutes (e.apply recode · c.name)
      (fun t => t.schema.require names >>= fun _ => t.select (t.columnNames.filter p)) t u := by
  by_cases hmem : ∀ k ∈ names, k ∈ t.columnNames
  · have hmem' : ∀ k ∈ names, k ∈ u.columnNames := by rwa [h.columnNames_eq]
    obtain ⟨w, hw, hwh⟩ := h.holds.exists_select_filter p
    obtain ⟨w', hw', hwh'⟩ := h.result.exists_select_filter p
    -- the column is among the chosen ones, so it can be encoded after them
    obtain ⟨v, hv, hvh⟩ := exists_apply hwh (List.mem_filter.2 ⟨h.mem, hp⟩) h.stored h.recoded
      h.canonical h.name_eq h.length_eq
    -- the chosen ones of the replaced columns are the chosen columns, replaced
    have hsame : (cs.map d.replacedBy).filter (fun c => p c.name) =
        (cs.filter fun c => p c.name).map d.replacedBy := by
      rw [List.filter_map]
      congr 1
      refine List.filter_congr fun x _ => ?_
      show p (d.replacedBy x).name = p x.name
      rw [Column.name_replacedBy]
    rw [hsame] at hwh'
    obtain rfl : v = w' := hvh.unique hwh'
    exact .of_ok (bind_eq_ok_iff.2 ⟨(), Schema.require_eq_ok_iff.2 hmem, hw⟩) hv
      (bind_eq_ok_iff.2 ⟨(), Schema.require_eq_ok_iff.2 hmem', hw'⟩)
  · -- a name that is missing is missing in both tables
    push Not at hmem
    have hmem' : ∃ k ∈ names, k ∉ u.columnNames := by rwa [h.columnNames_eq]
    have habsent := require_of_absent hmem
    have habsent' := require_of_absent hmem'
    rw [h.columnNames_eq] at habsent'
    exact .of_error (by rw [habsent, error_bind]) (by rw [habsent', error_bind])

/-- Columns may be kept before or after, as long as the encoded one is among them. -/
theorem keep (h : Applied recode e t u n cs m c d) (hc : c.name ∈ names) :
    Commutes (e.apply recode · c.name) (·.keep names) t u :=
  h.select (fun k => k ∈ names) (decide_eq_true hc)

/-- Columns may be dropped before or after, as long as the encoded one is not among them. -/
theorem drop (h : Applied recode e t u n cs m c d) (hc : c.name ∉ names) :
    Commutes (e.apply recode · c.name) (·.drop names) t u :=
  h.select (fun k => k ∉ names) (decide_eq_true hc)

/-- Renaming another column, whether this succeeds or not. -/
theorem rename (h : Applied recode e t u n cs m c d) (hold : old ≠ c.name) :
    Commutes (e.apply recode · c.name) (·.rename old new) t u := by
  have hnames := h.columnNames_eq
  -- the failures depend on names alone, and both tables have the same
  by_cases hmem : old ∈ t.columnNames
  · by_cases heq : old = new
    · subst heq
      exact .of_ok (Table.rename_self hmem) h.apply_eq (Table.rename_self (hnames ▸ hmem))
    · by_cases htaken : new ∈ t.columnNames
      · exact .of_error (Table.rename_taken hmem heq htaken)
          (Table.rename_taken (hnames ▸ hmem) heq (hnames ▸ htaken))
      · obtain ⟨w, hw, hwh⟩ := h.holds.exists_rename hmem htaken
        obtain ⟨w', hw', hwh'⟩ := h.result.exists_rename (hnames ▸ hmem) (hnames ▸ htaken)
        have hcw : c ∈ cs.map (Column.renamed old new) :=
          List.mem_map.2 ⟨c, h.mem, Column.renamed_of_ne (Ne.symm hold)⟩
        obtain ⟨v, hv, hvh⟩ := exists_apply hwh hcw h.stored h.recoded h.canonical h.name_eq
          h.length_eq
        -- neither the old nor the new name is that of the replaced column
        have hnew : d.name ≠ new := by
          rintro rfl
          exact htaken (h.holds.mem_columnNames_iff.2 ⟨c, h.mem, h.name_eq.symm⟩)
        have hsame : (cs.map d.replacedBy).map (Column.renamed old new) =
            (cs.map (Column.renamed old new)).map d.replacedBy := by
          rw [List.map_map, List.map_map]
          exact List.map_congr_left fun b _ =>
            Column.renamed_replacedBy (h.name_eq ▸ Ne.symm hold) hnew b
        rw [hsame] at hwh'
        obtain rfl : v = w' := hvh.unique hwh'
        exact .of_ok hw hv hw'
  · exact .of_error (Table.rename_of_notMem hmem) (Table.rename_of_notMem (hnames ▸ hmem))

/-- Replacing another column, whether this succeeds or not. -/
theorem replace (h : Applied recode e t u n cs m c d) (hb : b.Canonical) (hbc : b.name ≠ c.name) :
    Commutes (e.apply recode · c.name) (·.replace b) t u := by
  have hnames := h.columnNames_eq
  by_cases hmem : b.name ∈ t.columnNames
  · by_cases hl : b.length = n
    · obtain ⟨w, hw, hwh⟩ := h.holds.exists_replace hb hmem hl
      obtain ⟨w', hw', hwh'⟩ := h.result.exists_replace hb (hnames ▸ hmem) hl
      have hcw : c ∈ cs.map b.replacedBy :=
        List.mem_map.2 ⟨c, h.mem, Column.replacedBy_of_ne (Ne.symm hbc)⟩
      obtain ⟨v, hv, hvh⟩ := exists_apply hwh hcw h.stored h.recoded h.canonical h.name_eq
        h.length_eq
      -- the two columns have different names, so neither takes the place of the other
      have hsame : (cs.map d.replacedBy).map b.replacedBy =
          (cs.map b.replacedBy).map d.replacedBy := by
        rw [List.map_map, List.map_map, Column.replacedBy_comm (h.name_eq ▸ hbc)]
      rw [hsame] at hwh'
      obtain rfl : v = w' := hvh.unique hwh'
      exact .of_ok hw hv hw'
    · have hrows : u.rowCount = t.rowCount := h.result.rowCount_eq.trans h.holds.rowCount_eq.symm
      have hlt : b.length ≠ t.rowCount := by rwa [h.holds.rowCount_eq]
      have herr := Table.replace_of_length_ne (hnames ▸ hmem) (hrows ▸ hlt)
      rw [hrows] at herr
      exact .of_error (Table.replace_of_length_ne hmem hlt) herr
  · exact .of_error (Table.replace_of_notMem hmem) (Table.replace_of_notMem (hnames ▸ hmem))

/-- The operation on another column, whether this succeeds or not. -/
theorem other {k : String} (h : Applied recode e t u n cs m c d) (hr : Mapping.Cellwise recode)
    (hk : k ≠ c.name) : Commutes (e.apply recode · c.name) (e.apply recode · k) t u := by
  have hcol : u.column k = t.column k := h.holds.column_of_ne h.result (h.name_eq ▸ hk)
  -- up to the replacement both tables go through the same steps
  have hsteps : ∀ w : Table, w.column k = t.column k → e.apply recode w k =
      (do let x ← t.column k; recode (← e.mappings.get k) x) >>= w.replace := by
    intro w hw
    simp only [apply, hw, bind_assoc]
  cases hmade : (do let x ← t.column k; recode (← e.mappings.get k) x : Except Error Column) with
  | error err =>
    have hleft : e.apply recode t k = .error err := by rw [hsteps t rfl, hmade, error_bind]
    have hright : e.apply recode u k = .error err := by rw [hsteps u hcol, hmade, error_bind]
    exact .of_error hleft hright
  | ok y =>
    -- what is made for the other column is put into both tables
    obtain ⟨x, hx, hrest⟩ := bind_eq_ok_iff.1 hmade
    obtain ⟨m', -, hy⟩ := bind_eq_ok_iff.1 hrest
    obtain ⟨hxmem, rfl⟩ := h.holds.column_eq_ok_iff.1 hx
    obtain ⟨hyc, hyn, -⟩ := hr.spec (h.holds.canonical x hxmem) hy
    refine (h.replace hyc (hyn ▸ hk)).congr ?_ ?_
    · rw [hsteps t rfl, hmade, ok_bind]
    · rw [hsteps u hcol, hmade, ok_bind]

end Applied

/-- An operation on a column made the second table of the first, and may be exchanged with every way
of reshaping that leaves the column in its place. -/
structure CommutesWithReshaping (act : Table → String → Except Error Table) (t u : Table)
    (name : String) : Prop where
  /-- Rows within bounds make a table. -/
  exists_pick : ∀ indices : List Int, indices ≠ [] →
    (∀ i ∈ indices, 0 ≤ i ∧ i < t.rowCount) → ∃ w, t.pick indices = .ok w
  pick : ∀ indices : List Int, indices ≠ [] → Commutes (act · name) (·.pick indices) t u
  keep : ∀ names, name ∈ names → Commutes (act · name) (·.keep names) t u
  drop : ∀ names, name ∉ names → Commutes (act · name) (·.drop names) t u
  rename : ∀ old new, old ≠ name → Commutes (act · name) (·.rename old new) t u
  other : ∀ k, k ≠ name → Commutes (act · name) (act · k) t u

/-- Every operation that reads one cell at a time commutes with each way of reshaping. -/
theorem commutesWithReshaping_of_apply (hr : Mapping.Cellwise recode) (h : t.Holds n cs)
    (hu : e.apply recode t name = .ok u) :
    CommutesWithReshaping (e.apply recode) t u name := by
  obtain ⟨m, c, d, rfl, happ⟩ := exists_applied hr h hu
  refine ⟨fun indices hne hin => ?_, fun indices hne => happ.pick hr hne,
    fun names hc => happ.keep hc, fun names hc => happ.drop hc,
    fun old new hold => happ.rename hold, fun k hk => happ.other hr hk⟩
  rw [h.rowCount_eq] at hin
  obtain ⟨w, es, hw, -⟩ := h.exists_pick hne hin
  exact ⟨w, hw⟩

/-- Whether a column is encoded, or decoded, before or after a table is reshaped makes no
difference. If the operation succeeds on the table, it does on the table reshaped, and gives the
table that it made, reshaped: by picking rows in any order and as often as one likes, by choosing
columns with this one among them, by renaming another column, or by the operation on another column.
What cannot be reshaped before cannot be reshaped after, for the same reason. -/
theorem recoding_commutes (ht : Reachable (.table t)) :
    (∀ (e : Encoder) name u, e.transform t name = .ok u →
      CommutesWithReshaping e.transform t u name) ∧
    ∀ (e : Encoder) name u, e.inverse t name = .ok u →
      CommutesWithReshaping e.inverse t u name := by
  obtain ⟨n, cs, h⟩ := ht.sound
  refine ⟨fun e name u hu => ?_, fun e name u hu => ?_⟩
  · rw [transform_eq_apply] at hu ⊢
    exact commutesWithReshaping_of_apply Mapping.cellwise_encode h hu
  · rw [inverse_eq_apply] at hu ⊢
    exact commutesWithReshaping_of_apply Mapping.cellwise_decode h hu

/-- The last row, the first one and the last one again, encoded and then decoded. -/
theorem recoding_commutes_scores : ∃ t e u w v, Table.ofFrame .scores = .ok t ∧
    (fit t "score").run.run (ofRule .label) = (.ok (), e) ∧ e.transform t "score" = .ok u ∧
    t.pick [2, 0, 2] = .ok w ∧ e.transform w "score" = .ok v ∧ u.pick [2, 0, 2] = .ok v ∧
      e.inverse v "score" = .ok w := by
  obtain ⟨t, e, u, ht, he, hu, hback⟩ : ∃ t e u, Table.ofFrame .scores = .ok t ∧
      (fit t "score").run.run (ofRule .label) = (.ok (), e) ∧ e.transform t "score" = .ok u ∧
      e.inverse u "score" = .ok t := ⟨_, _, _, rfl, rfl, rfl, rfl⟩
  have htable : Reachable (.table t) := .ofFrame ht
  -- the encoded table can be reached as well, so decoding it commutes in turn
  have hcodes : Reachable (.table u) := .transform (.of_fit (.ofRule .label) htable he) htable hu
  have hencode := (recoding_commutes htable).1 e "score" u hu
  have hdecode := (recoding_commutes hcodes).2 e "score" t hback
  obtain ⟨w, hw⟩ := hencode.exists_pick [2, 0, 2] (by decide) (by cases ht; decide)
  obtain ⟨v, hv, hpick⟩ := (hencode.pick [2, 0, 2] (by decide)).ok w hw
  obtain ⟨w', hw', hpick'⟩ := (hdecode.pick [2, 0, 2] (by decide)).ok v hpick
  obtain rfl : w = w' := Except.ok.inj (hw.symm.trans hpick')
  exact ⟨t, e, u, w, v, ht, he, hu, hw, hv, hpick, hw'⟩

end Encoder

end Tabula
