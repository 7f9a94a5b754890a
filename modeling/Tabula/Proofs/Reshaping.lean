import Tabula.Proofs.Agreement

/-!
# What operations do to the columns of a table

Each operation writes a schema and a frame by code of its own. Here each of them is said once as
what it does to the list of columns, and that schema and frame agree afterwards.

* `Holds.exists_rename`, `Holds.exists_drop`, `Holds.exists_keep`, `Holds.exists_replace` — the
  operations that change columns, with the conditions under which they succeed.
* `Holds.rename_cases`, `Holds.replace_cases` — all that these operations can come to.
* `Holds.of_rename`, `Holds.of_drop`, `Holds.of_keep`, `Holds.of_replace` — whatever succeeds leaves
  a table that agrees.
* `ofColumns_eq`, `ofColumns_of_forall_length` — building from columns, for any list of them.
* `exists_holds_of_ofFrame`, `exists_holds_of_ofColumns`, `exists_holds_of_ofRows` — the operations
  that build a table.
-/

namespace Tabula

namespace Column

/-- The column under its new name, if it is the one that is renamed. -/
def renamed (old new : String) (c : Column) : Column :=
  if c.name = old then ⟨new, c.type, c.series.rename new⟩ else c

/-- The column that stands in the place of `d` once `c` has replaced the one of its name. -/
def replacedBy (c d : Column) : Column := if d.name = c.name then c else d

variable {c d : Column} {old new : String}

theorem renamed_of_eq (h : c.name = old) :
    c.renamed old new = ⟨new, c.type, c.series.rename new⟩ := if_pos h

theorem renamed_of_ne (h : c.name ≠ old) : c.renamed old new = c := if_neg h

theorem replacedBy_of_eq (h : d.name = c.name) : c.replacedBy d = c := if_pos h

theorem replacedBy_of_ne (h : d.name ≠ c.name) : c.replacedBy d = d := if_neg h

/-- Of the entry in the schema only the name changes. -/
theorem entry_renamed :
    (c.renamed old new).entry = (if c.name = old then new else c.name, c.type) := by
  rw [renamed]
  split <;> rfl

theorem length_renamed : (c.renamed old new).length = c.length := by
  rw [renamed]
  split <;> rfl

/-- A renamed column is as canonical as it was. -/
theorem Canonical.renamed (h : c.Canonical) : (c.renamed old new).Canonical := by
  rw [Column.renamed]
  split
  · exact ⟨rfl, h.dtype_eq⟩
  · exact h

/-- Whether a column is renamed can be told from its series. -/
theorem Canonical.series_renamed (h : c.Canonical) : (c.renamed old new).series =
    if c.series.name = old then c.series.rename new else c.series := by
  rw [Column.renamed, h.name_eq]
  split <;> rfl

/-- Whether or not it gives way, there is a column of the same name afterwards. -/
theorem name_replacedBy : (c.replacedBy d).name = d.name := by
  rw [replacedBy]
  split
  · next h => exact h.symm
  · rfl

/-- Of two columns with one name that replace each other, the last one counts. -/
theorem replacedBy_comp_replacedBy {b : Column} (h : b.name = d.name) :
    b.replacedBy ∘ d.replacedBy = b.replacedBy := by
  funext c
  show (if (d.replacedBy c).name = b.name then b else d.replacedBy c) = _
  rw [name_replacedBy, replacedBy, replacedBy, h]
  split
  · rfl
  · rfl

/-- Columns with different names take their places in any order. -/
theorem replacedBy_comm (h : c.name ≠ d.name) :
    c.replacedBy ∘ d.replacedBy = d.replacedBy ∘ c.replacedBy := by
  funext b
  simp only [Function.comp_apply]
  -- at most one of the two names is the one of the column at hand
  by_cases hd : b.name = d.name
  · have hc : b.name ≠ c.name := fun hbc => h (hbc.symm.trans hd)
    rw [replacedBy_of_eq hd, replacedBy_of_ne hc, replacedBy_of_eq hd,
      replacedBy_of_ne (Ne.symm h)]
  · by_cases hc : b.name = c.name
    · rw [replacedBy_of_ne hd, replacedBy_of_eq hc, replacedBy_of_ne h]
    · rw [replacedBy_of_ne hd, replacedBy_of_ne hc, replacedBy_of_ne hd]

end Column

namespace Table

/-! ### Refusals

They are settled by the schema alone, before the frame is touched. -/

section

variable {t : Table} {old new : String} {c : Column}

theorem has_eq_true {name : String} (h : name ∈ t.columnNames) : t.schema.has name = true :=
  t.schema.has_iff_mem_names.2 h

theorem has_eq_false {name : String} (h : name ∉ t.columnNames) : t.schema.has name = false :=
  Bool.eq_false_iff.2 fun hh => h (t.schema.has_iff_mem_names.1 hh)

/-- An absent column cannot be renamed, not even to its own name. -/
theorem rename_of_notMem (h : old ∉ t.columnNames) :
    t.rename old new = .error (.missingColumns [old]) := by
  rw [rename, has_eq_false h]
  rfl

/-- A column may keep its name, and the table is left as it is. -/
theorem rename_self (h : old ∈ t.columnNames) : t.rename old old = .ok t := by
  rw [rename, has_eq_true h]
  simp only [Bool.not_true, Bool.false_eq_true, if_false, if_true, pure_eq_ok]

/-- The name of another column is refused. -/
theorem rename_taken (hold : old ∈ t.columnNames) (hne : old ≠ new) (hnew : new ∈ t.columnNames) :
    t.rename old new = .error (.duplicateColumn new) := by
  rw [rename, has_eq_true hold, has_eq_true hnew]
  simp only [Bool.not_true, Bool.false_eq_true, if_false, hne, if_true, throw_eq_error, error_bind]

/-- A column can only take the place of one of its name. -/
theorem replace_of_notMem (h : c.name ∉ t.columnNames) :
    t.replace c = .error (.missingColumns [c.name]) := by
  rw [replace, Schema.index_of_notMem h]
  rfl

/-- It has to be as long as the table. This is checked after the name. -/
theorem replace_of_length_ne (h : c.name ∈ t.columnNames) (hl : c.length ≠ t.rowCount) :
    t.replace c = .error (.lengthMismatch c.name t.rowCount c.length) := by
  obtain ⟨i, hi⟩ : ∃ i, t.schema.names[i]? = some c.name := List.mem_iff_getElem?.1 h
  rw [replace, Schema.index_eq_ok_iff.2 hi, ok_bind, if_pos hl]
  rfl

end

namespace Holds

variable {t u : Table} {n : Nat} {cs ds : List Column} {c : Column} {old new : String}
  {names : List String}

/-! ### Renaming a column -/

/-- Distinct names stay distinct when one of them gives way to a new one. -/
theorem nodup_renamed (h : t.Holds n cs) (hnew : new ∉ t.columnNames) :
    (((cs.map (Column.renamed old new)).map Column.entry).map Prod.fst).Nodup := by
  have hn : ((cs.map (Column.renamed old new)).map Column.entry).map Prod.fst =
      (cs.map Column.name).map fun m => if m = old then new else m := by
    simp [Function.comp_def, Column.entry_renamed]
  rw [h.columnNames_eq] at hnew
  rw [hn]
  -- two names clash only if one of them is renamed to the other, which is not there
  refine h.nodup.map_on fun a ha b hb hab => ?_
  by_cases hao : a = old
  · by_cases hbo : b = old
    · rw [hao, hbo]
    · rw [if_pos hao, if_neg hbo] at hab
      exact absurd (hab ▸ hb) hnew
  · by_cases hbo : b = old
    · rw [if_neg hao, if_pos hbo] at hab
      exact absurd (hab ▸ ha) hnew
    · rwa [if_neg hao, if_neg hbo] at hab

/-- A column can be renamed to a name that is not taken, and nothing else changes. -/
theorem exists_rename (h : t.Holds n cs) (hold : old ∈ t.columnNames) (hnew : new ∉ t.columnNames) :
    ∃ u, t.rename old new = .ok u ∧ u.Holds n (cs.map (Column.renamed old new)) := by
  have hne : old ≠ new := fun e => hnew (e ▸ hold)
  have hd : (((cs.map (Column.renamed old new)).map Column.entry).map Prod.fst).Nodup :=
    h.nodup_renamed hnew
  obtain ⟨s, hs, hsc⟩ := Schema.exists_ofColumns hd
  have hf : t.frame.rename old new =
      .ok ⟨t.frame.height, (cs.map (Column.renamed old new)).map Column.series⟩ := by
    -- the frame has the names of the schema, so it accepts what the schema accepted
    have hn : new ∉ t.frame.names := by rwa [h.frame_names_eq, ← h.columnNames_eq]
    have ho : old ∈ t.frame.names := by rwa [h.frame_names_eq, ← h.columnNames_eq]
    rw [Frame.rename, if_neg (fun hc => hn hc.2), if_neg (not_not_intro ho), h.series_eq,
      List.map_map, List.map_map]
    congr 2
    exact List.map_congr_left fun c hc => ((h.canonical c hc).series_renamed).symm
  -- the schema of the new table is built anew from the old entries
  have hc : (t.schema.columns.map fun p => (if p.1 = old then new else p.1, p.2)) =
      (cs.map (Column.renamed old new)).map Column.entry := by
    rw [h.columns_eq, List.map_map, List.map_map]
    exact List.map_congr_left fun c _ => Column.entry_renamed.symm
  refine ⟨⟨s, ⟨t.frame.height, _⟩⟩, ?_, ⟨hsc, rfl, h.height_eq, ?_, ?_⟩⟩
  · rw [rename, has_eq_true hold, has_eq_false hnew, hf]
    simp only [hne, Bool.not_true, Bool.false_eq_true, if_false, ok_bind, pure_eq_ok]
    show Schema.ofColumns (t.schema.columns.map fun p => (if p.1 = old then new else p.1, p.2)) >>=
      _ = _
    rw [hc, hs, ok_bind]
  · intro c hc
    obtain ⟨d, hd, rfl⟩ := List.mem_map.1 hc
    exact (h.canonical d hd).renamed
  · intro c hc
    obtain ⟨d, hd, rfl⟩ := List.mem_map.1 hc
    rw [Column.length_renamed, h.length_eq d hd]

/-- What renaming comes to, in the order in which it is decided. -/
theorem rename_cases (h : t.Holds n cs) (old new : String) :
    (old ∉ t.columnNames ∧ t.rename old new = .error (.missingColumns [old])) ∨
    (old ∈ t.columnNames ∧ old = new ∧ t.rename old new = .ok t) ∨
    (old ∈ t.columnNames ∧ old ≠ new ∧ new ∈ t.columnNames ∧
      t.rename old new = .error (.duplicateColumn new)) ∨
    (old ∈ t.columnNames ∧ new ∉ t.columnNames ∧
      ∃ u, t.rename old new = .ok u ∧ u.Holds n (cs.map (Column.renamed old new))) := by
  -- the cases come in the order of the checks
  by_cases hold : old ∈ t.columnNames
  · by_cases hne : old = new
    · subst hne
      exact .inr (.inl ⟨hold, rfl, rename_self hold⟩)
    · by_cases hnew : new ∈ t.columnNames
      · exact .inr (.inr (.inl ⟨hold, hne, hnew, rename_taken hold hne hnew⟩))
      · exact .inr (.inr (.inr ⟨hold, hnew, h.exists_rename hold hnew⟩))
  · exact .inl ⟨hold, rename_of_notMem hold⟩

/-- Renaming succeeds only for an existing column, and either changes nothing or takes a free
name. -/
theorem of_rename (h : t.Holds n cs) (hu : t.rename old new = .ok u) :
    old ∈ t.columnNames ∧
      (old = new ∧ u = t ∨
        new ∉ t.columnNames ∧ u.Holds n (cs.map (Column.renamed old new))) := by
  -- two of the four cases are failures
  obtain ⟨-, hr⟩ | ⟨hold, hn, hr⟩ | ⟨-, -, -, hr⟩ | ⟨hold, hnew, v, hv, hh⟩ :=
    h.rename_cases old new
  · cases hr.symm.trans hu
  · exact ⟨hold, .inl ⟨hn, Except.ok.inj (hu.symm.trans hr)⟩⟩
  · cases hr.symm.trans hu
  · obtain rfl : v = u := Except.ok.inj (hv.symm.trans hu)
    exact ⟨hold, .inr ⟨hnew, hh⟩⟩

/-! ### Choosing columns -/

/-- Some of the columns, in any order, make a table with as many rows, also if they are none. -/
theorem exists_select (h : t.Holds n cs) (hsub : ∀ d ∈ ds, d ∈ cs)
    (hd : (ds.map Column.name).Nodup) :
    ∃ u, t.select (ds.map Column.name) = .ok u ∧ u.Holds n ds := by
  -- each name finds its type in the schema and its series in the frame
  have hc : (ds.map Column.name).mapM (fun m => (t.schema.typeOf m).map fun type => (m, type)) =
      .ok (ds.map Column.entry) := by
    rw [mapM_eq_ok_iff, List.forall₂_map_left_iff, List.forall₂_map_right_iff, List.forall₂_same]
    intro d hd
    refine map_eq_ok_iff.2 ⟨d.type, ?_, rfl⟩
    rw [Schema.typeOf_eq_ok_iff, h.columns_eq]
    exact List.mem_map.2 ⟨d, hsub d hd, rfl⟩
  have hm : (ds.map Column.name).mapM t.frame.seriesOf = .ok (ds.map Column.series) := by
    rw [mapM_eq_ok_iff, List.forall₂_map_left_iff, List.forall₂_map_right_iff, List.forall₂_same]
    intro d hd
    rw [Frame.seriesOf_eq_ok_iff (h.frame_names_eq ▸ h.nodup), h.series_eq]
    exact ⟨List.mem_map.2 ⟨d, hsub d hd, rfl⟩, (h.canonical d (hsub d hd)).name_eq⟩
  have hs : ((ds.map Column.entry).map Prod.fst).Nodup := by rwa [List.map_map]
  obtain ⟨s, hs, hsc⟩ := Schema.exists_ofColumns hs
  refine ⟨⟨s, ⟨n, ds.map Column.series⟩⟩, ?_, ⟨hsc, rfl, rfl, ?_, ?_⟩⟩
  · rw [select, hc, ok_bind, hs, ok_bind]
    by_cases he : ds = []
    · -- without columns the frame is not asked, and the height is the number of rows
      subst he
      rw [List.map_nil, List.isEmpty_nil, if_pos rfl, h.rowCount_eq]
      rfl
    · rw [if_neg (by simpa using he), Frame.select, if_neg (not_not_intro hd), hm, h.height_eq]
      rfl
  · exact fun d hd => h.canonical d (hsub d hd)
  · exact fun d hd => h.length_eq d (hsub d hd)

/-- The columns whose names are chosen by a test. -/
theorem exists_select_filter (h : t.Holds n cs) (p : String → Bool) :
    ∃ u, t.select (t.columnNames.filter p) = .ok u ∧ u.Holds n (cs.filter fun c => p c.name) := by
  have hn : t.columnNames.filter p = (cs.filter fun c => p c.name).map Column.name := by
    rw [h.columnNames_eq, List.filter_map]
    rfl
  rw [hn]
  refine h.exists_select (fun d hd => (List.mem_filter.1 hd).1) ?_
  rw [← hn, h.columnNames_eq]
  exact h.nodup.filter p

/-- All but the named columns are left if each of the names is one of a column. -/
theorem exists_drop (h : t.Holds n cs) (hn : ∀ m ∈ names, m ∈ t.columnNames) :
    ∃ u, t.drop names = .ok u ∧ u.Holds n (cs.filter fun c => c.name ∉ names) := by
  obtain ⟨u, hu, hh⟩ := h.exists_select_filter fun m => m ∉ names
  exact ⟨u, bind_eq_ok_iff.2 ⟨(), Schema.require_eq_ok_iff.2 hn, hu⟩, hh⟩

/-- The named columns are left, in the order of the table. -/
theorem exists_keep (h : t.Holds n cs) (hn : ∀ m ∈ names, m ∈ t.columnNames) :
    ∃ u, t.keep names = .ok u ∧ u.Holds n (cs.filter fun c => c.name ∈ names) := by
  obtain ⟨u, hu, hh⟩ := h.exists_select_filter fun m => m ∈ names
  exact ⟨u, bind_eq_ok_iff.2 ⟨(), Schema.require_eq_ok_iff.2 hn, hu⟩, hh⟩

/-- Choosing columns after existing ones were asked for leaves the chosen ones in order. -/
theorem of_require_select (h : t.Holds n cs) (p : String → Bool)
    (hu : (t.schema.require names >>= fun _ => t.select (t.columnNames.filter p)) = .ok u) :
    (∀ m ∈ names, m ∈ t.columnNames) ∧ u.Holds n (cs.filter fun c => p c.name) := by
  obtain ⟨_, hn, hu⟩ := bind_eq_ok_iff.1 hu
  obtain ⟨v, hv, hh⟩ := h.exists_select_filter p
  obtain rfl : v = u := Except.ok.inj (hv.symm.trans hu)
  exact ⟨Schema.require_eq_ok_iff.1 hn, hh⟩

/-- Dropping columns succeeds only if all names are known, and leaves those that are not named. -/
theorem of_drop (h : t.Holds n cs) (hu : t.drop names = .ok u) :
    (∀ m ∈ names, m ∈ t.columnNames) ∧ u.Holds n (cs.filter fun c => c.name ∉ names) :=
  h.of_require_select _ hu

/-- Keeping columns succeeds only if all names are known, and leaves those that are named. -/
theorem of_keep (h : t.Holds n cs) (hu : t.keep names = .ok u) :
    (∀ m ∈ names, m ∈ t.columnNames) ∧ u.Holds n (cs.filter fun c => c.name ∈ names) :=
  h.of_require_select _ hu

/-! ### Replacing a column -/

/-- The schema gets the new type at the position of the name and keeps everything else. -/
theorem retyped_columns (h : t.Holds n cs) {i : Nat} (hi : t.schema.names[i]? = some c.name) :
    (t.schema.columns.zipIdx.map fun ((m, type), j) => (m, if j = i then c.type else type)) =
      (cs.map c.replacedBy).map Column.entry := by
  -- both lists have, at each position, the name of the column there; only the types are in question
  refine List.ext_getElem? fun j => ?_
  have hnames : t.schema.names = cs.map Column.name := h.columnNames_eq
  rw [hnames, List.getElem?_map] at hi
  obtain ⟨d, hd, hdn⟩ := Option.map_eq_some_iff.1 hi
  rw [List.getElem?_map, List.getElem?_zipIdx, h.columns_eq, List.getElem?_map, List.getElem?_map,
    List.getElem?_map, Nat.zero_add]
  cases he : cs[j]? with
  | none => rfl
  | some e =>
    -- the position is the one of the name exactly if the column there has the name
    have hji : j = i ↔ e.name = c.name := by
      refine ⟨?_, ?_⟩
      · rintro rfl
        obtain rfl : d = e := Option.some.inj (hd.symm.trans he)
        exact hdn
      · intro hen
        obtain rfl : e = d :=
          h.eq_of_name_eq (List.mem_of_getElem? he) (List.mem_of_getElem? hd) (hen.trans hdn.symm)
        exact (List.getElem?_inj (List.getElem?_eq_some_iff.1 he).1 (h.nodup.of_map _)).1
          (he.trans hd.symm)
    by_cases hen : e.name = c.name
    · simp [Column.entry, Column.replacedBy, hji, hen]
    · simp [Column.entry, Column.replacedBy, hji, hen]

/-- A column of the right length takes the place of the one of its name; nothing else changes. -/
theorem exists_replace (h : t.Holds n cs) (hc : c.Canonical) (hn : c.name ∈ t.columnNames)
    (hl : c.length = n) : ∃ u, t.replace c = .ok u ∧ u.Holds n (cs.map c.replacedBy) := by
  obtain ⟨i, hi⟩ : ∃ i, t.schema.names[i]? = some c.name := List.mem_iff_getElem?.1 hn
  have hnames : ((cs.map c.replacedBy).map Column.entry).map Prod.fst = cs.map Column.name := by
    simp [Column.entry, Function.comp_def, Column.name_replacedBy]
  obtain ⟨s, hs, hsc⟩ := Schema.exists_ofColumns (hnames ▸ h.nodup)
  -- the frame looks for the name again, and finds it since it has the names of the schema
  have hf : t.frame.put c.series =
      .ok ⟨t.frame.height, (cs.map c.replacedBy).map Column.series⟩ := by
    have hlen : c.series.length = t.frame.height := hl.trans h.height_eq.symm
    have hm : c.series.name ∈ t.frame.names := by
      rwa [hc.name_eq, h.frame_names_eq, ← h.columnNames_eq]
    rw [Frame.put, if_neg (not_not_intro hlen), if_pos hm, h.series_eq, List.map_map, List.map_map]
    congr 2
    refine List.map_congr_left fun d hd => ?_
    simp only [Function.comp_apply, Column.replacedBy, hc.name_eq, (h.canonical d hd).name_eq]
    split <;> rfl
  refine ⟨⟨s, ⟨t.frame.height, _⟩⟩, ?_, ⟨hsc, rfl, h.height_eq, ?_, ?_⟩⟩
  · rw [replace, Schema.index_eq_ok_iff.2 hi, ok_bind, h.retyped_columns hi, hf, hs, h.rowCount_eq,
      if_neg (not_not_intro hl)]
    rfl
  · intro d hd
    -- a column of the new table is the given one or one of the old
    obtain ⟨e, he, rfl⟩ := List.mem_map.1 hd
    rw [Column.replacedBy]
    split
    · exact hc
    · exact h.canonical e he
  · intro d hd
    obtain ⟨e, he, rfl⟩ := List.mem_map.1 hd
    rw [Column.replacedBy]
    split
    · exact hl
    · exact h.length_eq e he

/-- Replacing a column leaves the names alone. -/
theorem columnNames_replaced (h : t.Holds n cs) (hu : u.Holds n (cs.map c.replacedBy)) :
    u.columnNames = t.columnNames := by
  rw [hu.columnNames_eq, h.columnNames_eq, List.map_map]
  exact List.map_congr_left fun d _ => Column.name_replacedBy

/-- The column that replaced another one is found under its name. -/
theorem column_replaced (hu : u.Holds n (cs.map c.replacedBy)) {d : Column} (hd : d ∈ cs)
    (hn : d.name = c.name) : u.column c.name = .ok c := by
  exact hu.column_eq_ok_iff.2 ⟨List.mem_map.2 ⟨d, hd, Column.replacedBy_of_eq hn⟩, rfl⟩

/-- Replacing a column leaves the others alone. -/
theorem column_of_ne (h : t.Holds n cs) (hu : u.Holds n (cs.map c.replacedBy)) {name : String}
    (hname : name ≠ c.name) : u.column name = t.column name := by
  by_cases hmem : name ∈ t.columnNames
  · obtain ⟨d, hd, rfl⟩ := h.mem_columnNames_iff.1 hmem
    have hdu : d ∈ cs.map c.replacedBy := List.mem_map.2 ⟨d, hd, Column.replacedBy_of_ne hname⟩
    rw [hu.column_eq_ok_iff.2 ⟨hdu, rfl⟩, h.column_eq_ok_iff.2 ⟨hd, rfl⟩]
  · rw [column_of_notMem hmem, column_of_notMem (h.columnNames_replaced hu ▸ hmem)]

/-- What replacing comes to, in the order in which it is decided. -/
theorem replace_cases (h : t.Holds n cs) (hc : c.Canonical) :
    (c.name ∉ t.columnNames ∧ t.replace c = .error (.missingColumns [c.name])) ∨
    (c.name ∈ t.columnNames ∧ c.length ≠ n ∧
      t.replace c = .error (.lengthMismatch c.name t.rowCount c.length)) ∨
    (c.name ∈ t.columnNames ∧ c.length = n ∧
      ∃ u, t.replace c = .ok u ∧ u.Holds n (cs.map c.replacedBy)) := by
  by_cases hn : c.name ∈ t.columnNames
  · by_cases hl : c.length = n
    · exact .inr (.inr ⟨hn, hl, h.exists_replace hc hn hl⟩)
    · exact .inr (.inl ⟨hn, hl, replace_of_length_ne hn (h.rowCount_eq ▸ hl)⟩)
  · exact .inl ⟨hn, replace_of_notMem hn⟩

/-- Replacing succeeds only for a column of the right name and length. -/
theorem of_replace (h : t.Holds n cs) (hc : c.Canonical) (hu : t.replace c = .ok u) :
    c.name ∈ t.columnNames ∧ c.length = n ∧ u.Holds n (cs.map c.replacedBy) := by
  obtain ⟨-, hr⟩ | ⟨-, -, hr⟩ | ⟨hn, hl, v, hv, hh⟩ := h.replace_cases hc
  · cases hr.symm.trans hu
  · cases hr.symm.trans hu
  · obtain rfl : v = u := Except.ok.inj (hv.symm.trans hu)
    exact ⟨hn, hl, hh⟩

/-- A column in its own place changes nothing. -/
theorem replace_self (h : t.Holds n cs) (hc : c ∈ cs) : t.replace c = .ok t := by
  -- only the column itself has its name
  have hsame : cs.map c.replacedBy = cs := by
    refine (List.map_congr_left fun b hb => ?_).trans cs.map_id
    unfold Column.replacedBy
    split
    · next hn => exact h.eq_of_name_eq hc hb hn.symm
    · rfl
  obtain ⟨u, hu, hh⟩ := h.exists_replace (h.canonical c hc) (h.mem_columnNames_iff.2 ⟨c, hc, rfl⟩)
    (h.length_eq c hc)
  rw [hsame] at hh
  rw [hu, hh.unique h]

end Holds

/-! ### Tables that are built -/

section

variable {t : Table}

theorem holds_empty : empty.Holds 0 [] :=
  ⟨rfl, rfl, rfl, by simp, by simp⟩

/-- The table of a frame agrees, whatever the frame holds; it has as many rows as the series have
cells, and the height of the frame if there are none. -/
theorem exists_holds_of_ofFrame {f : Frame} (h : ofFrame f = .ok t) :
    ∃ n cs, t.Holds n cs ∧ (∀ s ∈ f.series, s.length = n) ∧ (f.series = [] → n = f.height) := by
  obtain ⟨ps, hps, h⟩ := bind_eq_ok_iff.1 h
  obtain ⟨s, hs, h⟩ := bind_eq_ok_iff.1 h
  obtain ⟨g, hg, h⟩ := bind_eq_ok_iff.1 h
  obtain rfl : (⟨s, g⟩ : Table) = t := Except.ok.inj h
  rw [Schema.ofColumns_eq_ok_iff] at hs
  rw [mapM_eq_ok_iff] at hps
  obtain ⟨hgs, hgl, hgh⟩ := Frame.ofSeriesOver_eq_ok hg
  -- the columns are those that normalization has named, typed and stored
  refine ⟨g.height, ps.map fun p => ⟨p.1.name, p.2, p.1⟩, ⟨?_, ?_, rfl, ?_, ?_⟩, ?_, ?_⟩
  · rw [hs, List.map_map]
    rfl
  · rw [hgs, List.map_map]
    rfl
  · intro c hc
    obtain ⟨p, hp, rfl⟩ := List.mem_map.1 hc
    -- every column comes from a series that was normalized
    obtain ⟨u, -, hu⟩ := forall₂_exists_left hps hp
    exact ⟨rfl, (Series.normalize_spec hu).2.1⟩
  · intro c hc
    obtain ⟨p, hp, rfl⟩ := List.mem_map.1 hc
    exact hgl p.1 (List.mem_map_of_mem hp)
  · intro u hu
    obtain ⟨p, hp, hup⟩ := forall₂_exists_right hps hu
    rw [← (Series.normalize_spec hup).2.2]
    exact hgl p.1 (List.mem_map_of_mem hp)
  · intro he
    rw [he, List.forall₂_nil_left_iff] at hps
    exact hgh (by rw [hps, List.map_nil])

/-- The length of the first column; without columns there are no rows. -/
def lengthOfFirst (cs : List Column) : Nat := (cs.head?.map Column.length).getD 0

/-- The columns are held against the first one, and then go into a schema and a frame. It does not
matter that the first one is held against itself, nor that there may be none. -/
theorem ofColumns_eq (cs : List Column) : ofColumns cs =
    match cs.find? fun c => c.length ≠ lengthOfFirst cs with
    | some c => .error (.lengthMismatch c.name (lengthOfFirst cs) c.length)
    | none => do
      let schema ← Schema.ofColumns (cs.map Column.entry)
      return ⟨schema, ← Frame.ofSeries (cs.map Column.series)⟩ := by
  cases cs with
  | nil => rfl
  | cons first rest =>
    have hfirst : (first :: rest).find? (fun c => c.length ≠ lengthOfFirst (first :: rest)) =
        rest.find? fun c => c.length ≠ first.length :=
      List.find?_cons_of_neg (by simp [lengthOfFirst])
    rw [hfirst]
    rfl

/-- Columns of one length only have to go into a schema and a frame. -/
theorem ofColumns_of_forall_length {cs : List Column} {n : Nat} (h : ∀ c ∈ cs, c.length = n) :
    ofColumns cs = do
      let schema ← Schema.ofColumns (cs.map Column.entry)
      return ⟨schema, ← Frame.ofSeries (cs.map Column.series)⟩ := by
  -- the first column is as long as the others, so none is reported
  have hfind : cs.find? (fun c => c.length ≠ lengthOfFirst cs) = none := by
    rw [List.find?_eq_none]
    intro c hc
    cases cs with
    | nil => cases hc
    | cons first rest => simp [lengthOfFirst, h c hc, h first List.mem_cons_self]
  rw [ofColumns_eq, hfind]

/-- The table of columns consists of them. -/
theorem exists_holds_of_ofColumns {cs : List Column} (h : ofColumns cs = .ok t)
    (hc : ∀ c ∈ cs, c.Canonical) : ∃ n, t.Holds n cs := by
  rw [ofColumns_eq] at h
  split at h
  · cases h
  · obtain ⟨s, hs, h⟩ := bind_eq_ok_iff.1 h
    obtain ⟨g, hg, h⟩ := bind_eq_ok_iff.1 h
    obtain rfl : (⟨s, g⟩ : Table) = t := Except.ok.inj h
    rw [Schema.ofColumns_eq_ok_iff] at hs
    obtain ⟨hgs, hgl⟩ := Frame.ofSeries_eq_ok hg
    exact ⟨g.height, hs, hgs, rfl, hc, fun c hc => hgl c.series (List.mem_map_of_mem hc)⟩

theorem length_of_valuesAt {rows : List Row} {i : Nat} {vs : List Value}
    (h : valuesAt rows i = .ok vs) : vs.length = rows.length :=
  (mapM_eq_ok_iff.1 h).length_eq.symm

/-- Series that are made for the columns of a schema, one by one, make canonical columns. -/
theorem exists_columns {α : Type} {f : α → String × ColumnType} {P : Column → Prop} {xs : List α}
    {ss : List Series} (h : List.Forall₂ (fun x s => P ⟨(f x).1, (f x).2, s⟩) xs ss) :
    ∃ cs : List Column,
      xs.map f = cs.map Column.entry ∧ ss = cs.map Column.series ∧ ∀ c ∈ cs, P c := by
  -- a column is put together from an element and the series beside it
  induction h with
  | nil => exact ⟨[], rfl, rfl, by simp⟩
  | @cons x s xs ss hx _ ih =>
    obtain ⟨cs, hxs, hss, hP⟩ := ih
    refine ⟨⟨(f x).1, (f x).2, s⟩ :: cs, ?_, ?_, ?_⟩
    · rw [List.map_cons, List.map_cons, hxs]
      rfl
    · rw [List.map_cons, hss]
    · exact List.forall_mem_cons.2 ⟨hx, hP⟩

/-- The table of rows that agree has their schema and one row for each of them, also without
columns. -/
theorem holds_of_ofAgreeing {schema : Schema} {rows : List Row}
    (h : ofAgreeing schema rows = .ok t) : t.schema = schema ∧ ∃ cs, t.Holds rows.length cs := by
  obtain ⟨ss, hss, h⟩ := bind_eq_ok_iff.1 h
  obtain ⟨g, hg, h⟩ := bind_eq_ok_iff.1 h
  obtain rfl : (⟨schema, g⟩ : Table) = t := Except.ok.inj h
  obtain ⟨hgs, hgl, hgh⟩ := Frame.ofSeriesOver_eq_ok hg
  -- the series at a position is built from the values that the rows hold there
  have hcs : List.Forall₂ (fun (x : (String × ColumnType) × Nat) s =>
      Column.Canonical ⟨x.1.1, x.1.2, s⟩ ∧ s.length = rows.length) schema.columns.zipIdx ss := by
    refine (mapM_eq_ok_iff.1 hss).imp fun x s hx => ?_
    obtain ⟨vs, hvs, hx⟩ := bind_eq_ok_iff.1 hx
    obtain ⟨-, hn, hx⟩ := Series.ofValues_eq_ok_iff.1 hx
    obtain ⟨hd, hl, -⟩ := Series.values_spec hx
    exact ⟨⟨hn, hd⟩, hl.symm.trans (length_of_valuesAt hvs)⟩
  obtain ⟨cs, hc, hs, hP⟩ := exists_columns (P := fun c =>
    c.Canonical ∧ c.length = rows.length) hcs
  -- without columns the height is the number of rows, otherwise it is that of the first series
  have hh : g.height = rows.length := by
    cases cs with
    | nil => exact hgh hs
    | cons c cs =>
      have hm : c.series ∈ ss := hs ▸ List.mem_cons_self
      exact (hgl c.series hm).symm.trans (hP c List.mem_cons_self).2
  refine ⟨rfl, cs, ⟨?_, hgs.trans hs, hh, fun c hc => (hP c hc).1, fun c hc => (hP c hc).2⟩⟩
  rw [← hc, List.zipIdx_map_fst]

/-- The table of rows that agree has given columns if at each position the rows hold their values.
-/
theorem exists_ofAgreeing {schema : Schema} {rows : List Row} {ds : List Column}
    (hentries : schema.columns = ds.map Column.entry) (hcan : ∀ d ∈ ds, d.Canonical)
    (hlength : ∀ d ∈ ds, d.length = rows.length)
    (hvalues : ∀ i d vs, ds[i]? = some d → d.values = .ok vs → valuesAt rows i = .ok vs) :
    ∃ t, ofAgreeing schema rows = .ok t ∧ t.Holds rows.length ds := by
  have hnumbered : ds.map Column.series = ds.zipIdx.map fun p => p.1.series := by
    conv_lhs => rw [← List.zipIdx_map_fst 0 ds, List.map_map]
    rfl
  have hzip : (ds.map Column.entry).zipIdx = ds.zipIdx.map fun p => (p.1.entry, p.2) :=
    List.zipIdx_map
  -- every entry takes the values of the column that stands at its position
  have hseries : List.Forall₂ (fun (x : (String × ColumnType) × Nat) s =>
      valuesAt rows x.2 >>= Series.ofValues x.1.1 x.1.2 = .ok s)
      schema.columns.zipIdx (ds.map Column.series) := by
    rw [hentries, hzip, hnumbered, List.forall₂_map_left_iff, List.forall₂_map_right_iff,
      List.forall₂_same]
    rintro ⟨d, i⟩ hdi
    have hd : ds[i]? = some d := List.mem_zipIdx_iff_getElem?.1 hdi
    have hdc : d.Canonical := hcan d (List.mem_of_getElem? hd)
    obtain ⟨vs, hvs, -, hacc⟩ := hdc.exists_values
    exact bind_eq_ok_iff.2 ⟨vs, hvalues i d vs hd hvs,
      Series.ofValues_eq_ok_iff.2 ⟨hacc, hdc.name_eq, hvs⟩⟩
  -- the series are named as the columns of the schema
  have hnodup : ((ds.map Column.series).map Series.name).Nodup := by
    have hnames : (ds.map Column.series).map Series.name = schema.columns.map Prod.fst := by
      rw [hentries, List.map_map, List.map_map]
      exact List.map_congr_left fun d hd => (hcan d hd).name_eq
    exact hnames ▸ schema.nodup
  have hframe : Frame.ofSeriesOver rows.length (ds.map Column.series) =
      .ok ⟨rows.length, ds.map Column.series⟩ := by
    refine Frame.ofSeriesOver_of_forall (fun s hs => ?_) hnodup
    obtain ⟨d, hd, rfl⟩ := List.mem_map.1 hs
    exact hlength d hd
  exact ⟨⟨schema, _⟩, bind_eq_ok_iff.2 ⟨_, mapM_eq_ok_iff.2 hseries,
    bind_eq_ok_iff.2 ⟨_, hframe, rfl⟩⟩, hentries, rfl, rfl, hcan, hlength⟩

/-- Rows of one schema make the table that has it. -/
theorem ofRows_of_forall_schema {schema : Schema} {rows : List Row}
    (h : ∀ r ∈ rows, r.schema = schema) (hne : rows ≠ []) :
    ofRows rows = ofAgreeing schema rows := by
  cases rows with
  | nil => exact absurd rfl hne
  | cons first rest =>
    -- no row disagrees with the first one
    obtain ⟨hfirst, hrest⟩ := List.forall_mem_cons.1 h
    have hany : (rest.any fun r => r.schema ≠ first.schema) = false := by
      rw [List.any_eq_false]
      intro r hr
      simp [hrest r hr, hfirst]
    rw [ofRows, hany, hfirst]
    rfl

/-- A table that is built from rows has as many of them. -/
theorem exists_holds_of_ofRows {rows : List Row} (h : ofRows rows = .ok t) :
    ∃ cs, t.Holds rows.length cs := by
  cases rows with
  | nil =>
    obtain rfl : empty = t := Except.ok.inj h
    exact ⟨[], holds_empty⟩
  | cons first rest =>
    rw [ofRows] at h
    split at h
    · cases h
    · exact (holds_of_ofAgreeing h).2

end

end Table

end Tabula
