import Tabula.Proofs.Identity

/-!
# Renaming columns

To rename a column, the frame gives one of its series another name, and the schema is built anew
from all names, one of which has changed. Both have to leave every other column at its place, so
that the new name is found where the old one was. Then a column that was renamed can be renamed
back, and columns that get different names can be renamed in any order.

Whether the table is the same one afterwards is a matter of its number: the table keeps it under one
condition only, that the column gets the name that it has.

* `renamedName` — a name after one of all names has changed.
* `Table.Renamed` — one name has changed, and nothing else.
* `Holds.rename_back`, `Holds.exists_rename_rename` — two renamings one after the other.
* `Instance.RenamesLawfully` — which of the four outcomes there is, and `Run.renaming_lawful` — for
  every table of a run and all names.
-/

namespace Tabula

variable {t u v : Table} {n : Nat} {cs : List Column} {c : Column} {old new name : String}
  {a a' b b' : String}

/-- The name of a column after the column `old` has become the column `new`. -/
def renamedName (old new name : String) : String := if name = old then new else name

theorem renamedName_old : renamedName old new old = new := if_pos rfl

theorem renamedName_of_ne (h : name ≠ old) : renamedName old new name = name := if_neg h

/-! ### One column -/

namespace Column

/-- The name of a renamed column. -/
theorem name_renamed : (c.renamed old new).name = renamedName old new c.name := by
  rw [renamed, renamedName]
  split
  · rfl
  · rfl

/-- The cells stay what they are, since a series is renamed without them. -/
theorem values_renamed : (c.renamed old new).values = c.values := by
  rw [renamed]
  split
  · rfl
  · rfl

/-- A renamed column reads the same at every place. -/
theorem series_value_renamed (k : Nat) : (c.renamed old new).series.value k = c.series.value k := by
  rw [renamed]
  split
  · rfl
  · rfl

/-- A column gets its old name back, unless it had the new name before. -/
theorem Canonical.renamed_renamed (h : c.Canonical) (hnew : c.name ≠ new) :
    (c.renamed old new).renamed new old = c := by
  by_cases hc : c.name = old
  · subst hc
    -- the series had the name of the column, so its name comes back as well
    have hseries : (c.series.rename new).rename c.name = c.series := by
      rw [← h.name_eq]
      rfl
    calc (c.renamed c.name new).renamed new c.name
        = (⟨new, c.type, c.series.rename new⟩ : Column).renamed new c.name := by
          rw [renamed_of_eq rfl]
      _ = ⟨c.name, c.type, (c.series.rename new).rename c.name⟩ := renamed_of_eq rfl
      _ = c := by rw [hseries]
  · rw [renamed_of_ne hc, renamed_of_ne hnew]

/-- Changes of different names do not meet if neither new name is the other old one. -/
theorem renamed_comm (hab : a ≠ b) (ha : a' ≠ b) (hb : b' ≠ a) :
    renamed b b' ∘ renamed a a' = renamed a a' ∘ renamed b b' := by
  funext c
  simp only [Function.comp_apply]
  by_cases hca : c.name = a
  · have hcb : c.name ≠ b := fun h => hab (hca.symm.trans h)
    rw [renamed_of_eq hca, renamed_of_ne hcb, renamed_of_eq hca, renamed_of_ne ha]
  · by_cases hcb : c.name = b
    · rw [renamed_of_ne hca, renamed_of_eq hcb, renamed_of_ne hb]
    · rw [renamed_of_ne hca, renamed_of_ne hcb, renamed_of_ne hca]

end Column

/-! ### Tables -/

namespace Table

/-- The second table is the first one with the column `old` under the name `new`. -/
structure Renamed (old new : String) (t u : Table) : Prop where
  /-- All names stay in their order. -/
  columnNames_eq : u.columnNames = t.columnNames.map (renamedName old new)
  types_eq : u.schema.types = t.schema.types
  rowCount_eq : u.rowCount = t.rowCount
  /-- The cells of the columns, each under its name. -/
  columnValues_eq : ∀ name ∈ t.columnNames,
    u.columnValues (renamedName old new name) = t.columnValues name
  /-- The cells of the rows. -/
  row_eq : ∀ i, Row.values <$> u.row i = Row.values <$> t.row i
  column_of_ne : ∀ name, name ≠ old → name ≠ new → u.column name = t.column name
  /-- The new name is where the old one was. -/
  found : ∃ k, t.schema.index old = .ok k ∧ u.schema.index new = .ok k
  /-- The old name is gone. -/
  gone : old ∉ u.columnNames ∧ u.column old = .error (.missingColumns [old])

/-- The values of a row are what the series say at its place; the names play no part in them. -/
theorem values_row (t : Table) (i : Int) : Row.values <$> t.row i =
    checkedIndex i t.rowCount >>= fun k => t.frame.series.mapM fun s => s.value k := by
  simp only [row, map_bind, map_pure, bind_pure]

namespace Holds

/-- One name changes and all keep their places. -/
theorem columnNames_renamed (h : t.Holds n cs) (hu : u.Holds n (cs.map (Column.renamed old new))) :
    u.columnNames = t.columnNames.map (renamedName old new) := by
  rw [hu.columnNames_eq, h.columnNames_eq, List.map_map, List.map_map]
  exact List.map_congr_left fun c _ => Column.name_renamed

/-- Each column is found under the name that has become of its own. -/
theorem column_renamed (hu : u.Holds n (cs.map (Column.renamed old new))) (hc : c ∈ cs) :
    u.column (renamedName old new c.name) = .ok (c.renamed old new) :=
  hu.column_eq_ok_iff.2 ⟨List.mem_map_of_mem hc, Column.name_renamed⟩

/-- A name that is neither the old nor the new one is there if it was there before. -/
theorem mem_columnNames_renamed (h : t.Holds n cs)
    (hu : u.Holds n (cs.map (Column.renamed old new))) (hold : name ≠ old) (hnew : name ≠ new) :
    name ∈ u.columnNames ↔ name ∈ t.columnNames := by
  rw [h.columnNames_renamed hu, List.mem_map]
  constructor
  · rintro ⟨m, hm, rfl⟩
    have hmold : m ≠ old := fun hmo => hnew (hmo ▸ renamedName_old)
    rwa [renamedName_of_ne hmold]
  · intro hname
    exact ⟨name, hname, renamedName_of_ne hold⟩

/-- The old name is gone. -/
theorem notMem_columnNames_renamed (h : t.Holds n cs)
    (hu : u.Holds n (cs.map (Column.renamed old new))) (hne : old ≠ new) :
    old ∉ u.columnNames := by
  rw [h.columnNames_renamed hu, List.mem_map]
  rintro ⟨m, -, hm⟩
  -- a name that has become the old one would be the old one itself, which has changed
  by_cases hmold : m = old
  · rw [hmold, renamedName_old] at hm
    exact hne hm.symm
  · rw [renamedName_of_ne hmold] at hm
    exact hmold hm

/-- The new name is there. -/
theorem new_mem_columnNames_renamed (h : t.Holds n cs)
    (hu : u.Holds n (cs.map (Column.renamed old new))) (hold : old ∈ t.columnNames) :
    new ∈ u.columnNames := by
  rw [h.columnNames_renamed hu]
  exact List.mem_map.2 ⟨old, hold, renamedName_old⟩

/-- The columns of other names are found as before, or not at all as before. -/
theorem column_renamed_of_ne (h : t.Holds n cs)
    (hu : u.Holds n (cs.map (Column.renamed old new))) (hold : name ≠ old) (hnew : name ≠ new) :
    u.column name = t.column name := by
  by_cases hname : name ∈ t.columnNames
  · obtain ⟨c, hc, rfl⟩ := h.mem_columnNames_iff.1 hname
    have hcu := column_renamed hu hc
    rw [renamedName_of_ne hold, Column.renamed_of_ne hold] at hcu
    rw [hcu, h.column_eq_ok_iff.2 ⟨hc, rfl⟩]
  · have hname' : name ∉ u.columnNames := mt (h.mem_columnNames_renamed hu hold hnew).1 hname
    rw [column_of_notMem hname, column_of_notMem hname']

/-- The schema that is built anew notes the new name at the position of the old one. -/
theorem index_renamed (h : t.Holds n cs) (hu : u.Holds n (cs.map (Column.renamed old new)))
    {k : Nat} (hk : t.schema.index old = .ok k) : u.schema.index new = .ok k := by
  have hnames : u.schema.names = t.schema.names.map (renamedName old new) :=
    h.columnNames_renamed hu
  rw [Schema.index_eq_ok_iff] at hk ⊢
  rw [hnames, List.getElem?_map, hk, Option.map_some, renamedName_old]

/-- A renaming changes no value of any row. -/
theorem values_row_renamed (h : t.Holds n cs) (hu : u.Holds n (cs.map (Column.renamed old new)))
    (i : Int) : Row.values <$> u.row i = Row.values <$> t.row i := by
  rw [values_row, values_row, hu.rowCount_eq, h.rowCount_eq, hu.series_eq, h.series_eq]
  simp only [List.mapM_map, Function.comp_def, Column.series_value_renamed]

/-- A renaming changes no type. -/
theorem types_renamed (h : t.Holds n cs) (hu : u.Holds n (cs.map (Column.renamed old new))) :
    u.schema.types = t.schema.types := by
  rw [Schema.types, Schema.types, hu.columns_eq, h.columns_eq, List.map_map, List.map_map,
    List.map_map]
  refine List.map_congr_left fun c _ => ?_
  simp only [Function.comp_apply, Column.entry_renamed]
  rfl

/-- A table whose columns were renamed one by one differs from the first in that one name and in
nothing else. -/
theorem renamed (h : t.Holds n cs) (hu : u.Holds n (cs.map (Column.renamed old new)))
    (hold : old ∈ t.columnNames) (hne : old ≠ new) : t.Renamed old new u := by
  have hgone : old ∉ u.columnNames := h.notMem_columnNames_renamed hu hne
  obtain ⟨k, hk⟩ : ∃ k, t.schema.index old = .ok k :=
    (List.mem_iff_getElem?.1 hold).imp fun k => Schema.index_eq_ok_iff.2
  refine ⟨h.columnNames_renamed hu, h.types_renamed hu, hu.rowCount_eq.trans h.rowCount_eq.symm,
    fun name hname => ?_, h.values_row_renamed hu, fun name => h.column_renamed_of_ne hu,
    ⟨k, hk, h.index_renamed hu hk⟩, hgone, column_of_notMem hgone⟩
  -- the values of a column are found under the name that has become of its own
  obtain ⟨c, hc, rfl⟩ := h.mem_columnNames_iff.1 hname
  rw [columnValues, columnValues, column_renamed hu hc, h.column_eq_ok_iff.2 ⟨hc, rfl⟩, ok_bind,
    ok_bind, Column.values_renamed]

/-! ### Refusals -/

/-- The column is reported as missing exactly when it is. -/
theorem rename_eq_missing_iff (h : t.Holds n cs) :
    t.rename old new = .error (.missingColumns [old]) ↔ old ∉ t.columnNames := by
  refine ⟨fun herr => ?_, rename_of_notMem⟩
  -- of the four outcomes of a renaming only the first is this error
  obtain ⟨hold, -⟩ | ⟨-, -, hr⟩ | ⟨-, -, -, hr⟩ | ⟨-, -, u, hr, -⟩ := h.rename_cases old new
  · exact hold
  · cases hr.symm.trans herr
  · cases hr.symm.trans herr
  · cases hr.symm.trans herr

/-- A new name is reported as taken exactly when it is. -/
theorem rename_eq_taken_iff (h : t.Holds n cs) (hold : old ∈ t.columnNames) (hne : old ≠ new) :
    t.rename old new = .error (.duplicateColumn new) ↔ new ∈ t.columnNames := by
  refine ⟨fun herr => ?_, rename_taken hold hne⟩
  -- and only the third is this one
  obtain ⟨habsent, -⟩ | ⟨-, hn, -⟩ | ⟨-, -, hnew, -⟩ | ⟨-, -, u, hr, -⟩ := h.rename_cases old new
  · exact absurd hold habsent
  · exact absurd hn hne
  · exact hnew
  · cases hr.symm.trans herr

/-! ### Two renamings -/

/-- Renaming back undoes renaming: the table is the old one in every cell. -/
theorem rename_back (h : t.Holds n cs) (hold : old ∈ t.columnNames) (hnew : new ∉ t.columnNames)
    (hu : u.Holds n (cs.map (Column.renamed old new))) : u.rename new old = .ok t := by
  have hne : old ≠ new := fun he => hnew (he ▸ hold)
  obtain ⟨v, hv, hvh⟩ := hu.exists_rename (h.new_mem_columnNames_renamed hu hold)
    (h.notMem_columnNames_renamed hu hne)
  have hback : (cs.map (Column.renamed old new)).map (Column.renamed new old) = cs := by
    rw [List.map_map]
    refine (List.map_congr_left fun c hc => ?_).trans cs.map_id
    -- no column had the new name, so only the renamed one gets its old name back
    exact (h.canonical c hc).renamed_renamed fun hcn => hnew (h.mem_columnNames_iff.2 ⟨c, hc, hcn⟩)
  rw [hback] at hvh
  rw [hv, hvh.unique h]

/-- A second column can be renamed after a first one if the new names are free and different. -/
theorem exists_rename_rename (h : t.Holds n cs) (ha : a ∈ t.columnNames) (hb : b ∈ t.columnNames)
    (hab : a ≠ b) (ha' : a' ∉ t.columnNames) (hb' : b' ∉ t.columnNames) (hne : a' ≠ b') :
    ∃ v, (t.rename a a' >>= fun u => u.rename b b') = .ok v ∧
      v.Holds n (cs.map (Column.renamed b b' ∘ Column.renamed a a')) := by
  obtain ⟨u, hu, huh⟩ := h.exists_rename ha ha'
  -- the first change neither removes the second old name nor brings in the second new one
  have hba : b ≠ a' := fun he => ha' (he ▸ hb)
  have hbu : b ∈ u.columnNames := (h.mem_columnNames_renamed huh (Ne.symm hab) hba).2 hb
  have hba' : b' ≠ a := fun he => hb' (he.symm ▸ ha)
  have hbu' : b' ∉ u.columnNames := mt (h.mem_columnNames_renamed huh hba' (Ne.symm hne)).1 hb'
  obtain ⟨v, hv, hvh⟩ := huh.exists_rename hbu hbu'
  rw [List.map_map] at hvh
  rw [hu, ok_bind]
  exact ⟨v, hv, hvh⟩

/-- Two columns can be renamed in either order, which makes no difference. -/
theorem rename_comm (h : t.Holds n cs) (ha : a ∈ t.columnNames) (hb : b ∈ t.columnNames)
    (hab : a ≠ b) (ha' : a' ∉ t.columnNames) (hb' : b' ∉ t.columnNames) (hne : a' ≠ b') :
    ∃ v, v.Consistent ∧ (t.rename a a' >>= fun u => u.rename b b') = .ok v ∧
      (t.rename b b' >>= fun u => u.rename a a') = .ok v := by
  obtain ⟨v, hv, hvh⟩ := h.exists_rename_rename ha hb hab ha' hb' hne
  obtain ⟨u, hu, huh⟩ := h.exists_rename_rename hb ha (Ne.symm hab) hb' ha' (Ne.symm hne)
  have hba : a' ≠ b := fun he => ha' (he.symm ▸ hb)
  have hba' : b' ≠ a := fun he => hb' (he.symm ▸ ha)
  -- both orders give the columns the same names, and the columns determine the table
  rw [Column.renamed_comm hab hba hba'] at hvh
  obtain rfl : v = u := hvh.unique huh
  exact ⟨v, ⟨n, _, hvh⟩, hv, hu⟩

end Holds

end Table

/-! ### Tables of a session -/

namespace Instance

variable {i : Instance}

/-- A renaming that changes the name makes a new handle, under the next number. -/
theorem rename_run_of_ok (h : i.table.rename old new = .ok t) (hne : old ≠ new) (s : Session) :
    (i.rename old new).run.run s = (.ok ⟨s.issued, t⟩, { s with issued := s.issued + 1 }) := by
  rw [rename_run, h]
  exact if_neg hne

/-- The number has no part in what is refused. -/
theorem rename_run_eq_error_iff {e : Error} {s : Session} :
    ((i.rename old new).run.run s).1 = .error e ↔ i.table.rename old new = .error e := by
  rw [rename_run]
  -- what is answered is a table or the table with its number, but the error is the same
  cases i.table.rename old new with
  | error e' => simp only [Except.error.injEq]
  | ok t =>
    dsimp only
    split
    · simp only [reduceCtorEq]
    · simp only [reduceCtorEq]

/-- Two renamings that make a table do so in a session, one after the other. -/
theorem exists_rename_rename (h : (i.table.rename a a' >>= fun u => u.rename b b') = .ok v)
    (ha : a ≠ a') (hb : b ≠ b') (s : Session) : ∃ j r,
      (i.rename a a' >>= fun x => x.rename b b').run.run s = (.ok j, r) ∧ j.table = v := by
  obtain ⟨u, hu, hv⟩ := bind_eq_ok_iff.1 h
  rw [run_bind, rename_run_of_ok hu ha]
  exact ⟨_, _, rename_run_of_ok hv hb _, rfl⟩

/-- What becomes of the table `i` in the session `s` when its column `old` is to be `new`. -/
structure RenamesLawfully (i : Instance) (s : Session) (old new : String) : Prop where
  /-- First the old name has to be there, even if it is the new one as well. -/
  missing_iff : ((i.rename old new).run.run s).1 = .error (.missingColumns [old]) ↔
    old ∉ i.table.columnNames
  /-- Then the same table is answered if the new name is the old one, and in no other case. -/
  unchanged : old ∈ i.table.columnNames → old = new → (i.rename old new).run.run s = (.ok i, s)
  same_iff : ∀ j s', (i.rename old new).run.run s = (.ok j, s') → (i.same j = true ↔ old = new)
  /-- Then the new name must not be that of another column. -/
  taken_iff : old ∈ i.table.columnNames → old ≠ new →
    (((i.rename old new).run.run s).1 = .error (.duplicateColumn new) ↔ new ∈ i.table.columnNames)
  /-- Then there is a new table, which differs in this name and leads back to the old one. -/
  renamed : old ∈ i.table.columnNames → old ≠ new → new ∉ i.table.columnNames →
    ∃ j s', (i.rename old new).run.run s = (.ok j, s') ∧ i.same j = false ∧
      i.table.Renamed old new j.table ∧
      ∀ r, ∃ k r', (j.rename new old).run.run r = (.ok k, r') ∧ k.table = i.table ∧
        (k == i) = true

end Instance

namespace Run

variable {w : World} {i : Instance}

/-- A table of another number is not the same one, and only an unchanged name keeps the number. -/
theorem same_rename_iff (h : Run w) (hi : i ∈ w.tables) {j : Instance} {s : Session}
    (hj : (i.rename old new).run.run w.session = (.ok j, s)) : i.same j = true ↔ old = new := by
  constructor
  · -- a new name makes a new handle, and that is never the same as one there is
    intro hsame
    by_contra hne
    have hmakes := i.makes_rename hne w.session
    rw [hj] at hmakes
    rw [h.same_eq_false_of_new hi hmakes.1] at hsame
    cases hsame
  · -- a renaming that went through had a column to rename, so it answers the handle itself
    rintro rfl
    have hold : old ∈ i.table.columnNames := by
      by_contra hold
      cases hj.symm.trans (Instance.rename_run_of_notMem hold w.session)
    obtain rfl : j = i :=
      Except.ok.inj (Prod.mk.inj (hj.symm.trans (Instance.rename_self_run hold w.session))).1
    exact Instance.same_iff.2 rfl

/-- Every table of a run is renamed by the laws. -/
theorem renamesLawfully (h : Run w) (hi : i ∈ w.tables) (old new : String) :
    i.RenamesLawfully w.session old new := by
  obtain ⟨n, cs, hh⟩ := (h.sound.reachable i hi).sound
  refine ⟨Instance.rename_run_eq_error_iff.trans hh.rename_eq_missing_iff, fun hold hn => ?_,
    fun j s hj => h.same_rename_iff hi hj, fun hold hne =>
      Instance.rename_run_eq_error_iff.trans (hh.rename_eq_taken_iff hold hne),
    fun hold hne hnew => ?_⟩
  · subst hn
    exact Instance.rename_self_run hold w.session
  · -- a free name: the renaming goes through, and so does the one back
    obtain ⟨u, hu, huh⟩ := hh.exists_rename hold hnew
    have hback := hh.rename_back hold hnew huh
    refine ⟨_, _, Instance.rename_run_of_ok hu hne w.session, h.same_eq_false_of_new hi rfl,
      hh.renamed huh hold hne, fun r => ?_⟩
    refine ⟨⟨r.issued, i.table⟩, _, Instance.rename_run_of_ok hback (Ne.symm hne) r, rfl, ?_⟩
    exact Instance.beq_of_table_eq ⟨n, cs, hh⟩ rfl

/-- In every run, renaming a column of a table first asks for the old name, then answers the same
table if the new name is the old one, and then refuses a name that is taken; otherwise it makes a
new table that differs in this one name. It can be undone, and two columns can be renamed in either
order. -/
theorem renaming_lawful (h : Run w) (hi : i ∈ w.tables) :
    (∀ old new, i.RenamesLawfully w.session old new) ∧
    ∀ a a' b b', a ∈ i.table.columnNames → b ∈ i.table.columnNames → a ≠ b →
      a' ∉ i.table.columnNames → b' ∉ i.table.columnNames → a' ≠ b' → ∀ s s', ∃ j k r r',
        (i.rename a a' >>= fun x => x.rename b b').run.run s = (.ok j, r) ∧
        (i.rename b b' >>= fun x => x.rename a a').run.run s' = (.ok k, r') ∧
        j.table = k.table ∧ (j == k) = true := by
  obtain ⟨n, cs, hh⟩ := (h.sound.reachable i hi).sound
  refine ⟨h.renamesLawfully hi, fun a a' b b' ha hb hab ha' hb' hne s s' => ?_⟩
  obtain ⟨v, hv, hleft, hright⟩ := hh.rename_comm ha hb hab ha' hb' hne
  have haa : a ≠ a' := fun he => ha' (he ▸ ha)
  have hbb : b ≠ b' := fun he => hb' (he ▸ hb)
  -- each side answers a handle of its own, to one and the same table
  obtain ⟨j, r, hj, hjv⟩ := Instance.exists_rename_rename hleft haa hbb s
  obtain ⟨k, r', hk, hkv⟩ := Instance.exists_rename_rename hright hbb haa s'
  have hjk : j.table = k.table := hjv.trans hkv.symm
  exact ⟨j, k, r, r', hj, hk, hjk, Instance.beq_of_table_eq (hjv ▸ hv) hjk⟩

/-- The two columns of a table, with names that are absent, the same, taken and free. -/
theorem renaming_lawful_scores : ∃ w i j s, Run w ∧ i ∈ w.tables ∧
    i.table.columnNames = ["name", "score"] ∧
    ((i.rename "age" "age").run.run w.session).1 = .error (.missingColumns ["age"]) ∧
    (i.rename "name" "name").run.run w.session = (.ok i, w.session) ∧
    ((i.rename "name" "score").run.run w.session).1 = .error (.duplicateColumn "score") ∧
    (i.rename "score" "age").run.run w.session = (.ok j, s) ∧
    j.table.columnNames = ["name", "age"] ∧
    ∃ x y r r', (i.rename "name" "id" >>= fun k => k.rename "score" "age").run.run s = (.ok x, r) ∧
      (i.rename "score" "age" >>= fun k => k.rename "name" "id").run.run s = (.ok y, r') ∧
      (x == y) = true := by
  obtain ⟨w, i, hw, hi, hnames⟩ : ∃ (w : World) (i : Instance), Run w ∧ i ∈ w.tables ∧
      i.table.columnNames = ["name", "score"] :=
    ⟨_, _, .command (c := .ofFrame .scores) (.start .initial) trivial, List.mem_cons_self, rfl⟩
  obtain ⟨hlaws, hcomm⟩ := renaming_lawful hw hi
  have hname : "name" ∈ i.table.columnNames := by simp [hnames]
  have hscore : "score" ∈ i.table.columnNames := by simp [hnames]
  have hage : "age" ∉ i.table.columnNames := by simp [hnames]
  have hid : "id" ∉ i.table.columnNames := by simp [hnames]
  obtain ⟨j, s, hj, -, hrenamed, -⟩ := (hlaws "score" "age").renamed hscore (by decide) hage
  obtain ⟨x, y, r, r', hx, hy, -, hxy⟩ :=
    hcomm "name" "id" "score" "age" hname hscore (by decide) hid hage (by decide) s s
  refine ⟨w, i, j, s, hw, hi, hnames, (hlaws "age" "age").missing_iff.2 hage,
    (hlaws "name" "name").unchanged hname rfl,
    ((hlaws "name" "score").taken_iff hname (by decide)).2 hscore, hj, ?_,
    x, y, r, r', hx, hy, hxy⟩
  rw [hrenamed.columnNames_eq, hnames]
  rfl

end Run

end Tabula
