import Tabula.Proofs.CsvText
import Tabula.Proofs.Rows
import Tabula.Storage

/-!
# Sheets that are read back

A sheet is a document without quotes: a line of names, and for every row a line of fields. It is cut
at its line breaks and separators into what it was put together from. What is left to find out are
the types of the columns. A row without empty fields tells all of them, and since one row at least
is looked at, they come out right if such a row is the first.

* `Csv.IsSheet` — what names and fields have to be like.
* `Csv.readText?_sheet` — how a sheet is read.
* `Csv.columnTypes_sheet` — the types of its columns.
* `Table.Holds.exists_sheet` — the document of a table is read as its frame.
-/

namespace Tabula

namespace Csv

variable {separator : Char} {names seen : List String} {rows : List (List (List Char))}
  {o : Options} {n : Nat} {f : Frame} {series : List Series}

/-! ### Documents -/

/-- The names consist of letters, digits and the like, and each row has one field for each of them;
no quotes are needed around any of these. -/
structure IsSheet (separator : Char) (names : List String) (rows : List (List (List Char))) :
    Prop where
  separates : Separates separator
  names_ne : names ≠ []
  nodup : names.Nodup
  name_ne : ∀ name ∈ names, name.toList ≠ []
  name_word : ∀ name ∈ names, ∀ c ∈ name.toList, isWord c = true
  name_separator : ∀ name ∈ names, separator ∉ name.toList
  row_length : ∀ fs ∈ rows, fs.length = names.length
  row_plain : ∀ fs ∈ rows, ∀ f ∈ fs, Plain separator f

/-- The document of names and rows of fields. -/
def sheet (separator : Char) (names : List String) (rows : List (List (List Char))) : List Char :=
  line separator (names.map String.toList) ++ rows.flatMap (line separator)

/-- The fields of the rows. -/
def rowFields (rows : List (List (List Char))) : List (List Field) :=
  rows.map fun fs => fs.map (⟨·, false⟩)

/-- A line is its fields, joined by separators, and a break. -/
theorem flatMap_line (separator : Char) (rows : List (List (List Char))) :
    rows.flatMap (line separator) = (rows.map [separator].intercalate).flatMap (· ++ ['\n']) := by
  rw [List.flatMap_map]
  rfl

/-- Names that differ are left as they are. -/
theorem markRepeated_of_nodup (hn : names.Nodup) (hseen : ∀ name ∈ names, name ∉ seen) :
    markRepeated seen names = names := by
  induction names generalizing seen with
  | nil => rfl
  | cons name names ih =>
    obtain ⟨hname, hn⟩ := List.nodup_cons.1 hn
    obtain ⟨hnew, hseen⟩ := List.forall_mem_cons.1 hseen
    -- a name that has been passed is none of those to come
    have hrest : ∀ other ∈ names, other ∉ name :: seen := by
      intro other hother hmem
      obtain rfl | hmem := List.mem_cons.1 hmem
      · exact hname hother
      · exact hseen other hother hmem
    rw [markRepeated, List.count_eq_zero.2 hnew, ih hn hrest]

namespace IsSheet

variable (h : IsSheet separator names rows)

include h

/-- The names of a sheet are plain. -/
theorem name_plain : ∀ f ∈ names.map String.toList, Plain separator f := by
  intro f hf
  obtain ⟨name, hname, rfl⟩ := List.mem_map.1 hf
  exact plain_of_isWord (h.name_word name hname) (h.name_separator name hname)

/-- No quotes are written. -/
theorem render_eq_sheet {values : List (List Value)}
    (hrows : rows = values.map fun vs => vs.map (valueField separator)) :
    render separator names values = sheet separator names rows := by
  have hnames : names.map (textField separator) = names.map String.toList := by
    refine List.map_congr_left fun name hname => ?_
    exact textField_of_plain (h.name_ne name hname) (h.name_plain _ (List.mem_map_of_mem hname))
  have hempty : names.isEmpty = false := List.isEmpty_eq_false_iff.2 h.names_ne
  rw [render, hnames, hempty, sheet, hrows, List.flatMap_map]
  rfl

/-- No line of a sheet has a break inside. -/
theorem unbroken : ∀ l ∈ rows.map [separator].intercalate, Unbroken l := by
  intro l hl
  obtain ⟨fs, hfs, rfl⟩ := List.mem_map.1 hl
  exact unbroken_intercalate h.separates (h.row_plain fs hfs)

/-- A sheet begins with a letter or the like. -/
theorem exists_sheet_eq_cons : ∃ c cs, sheet separator names rows = c :: cs ∧ isWord c = true := by
  obtain ⟨name, rest, hnames⟩ := List.exists_cons_of_ne_nil h.names_ne
  have hmem : name ∈ names := hnames ▸ List.mem_cons_self
  obtain ⟨c, cs, hcs⟩ := List.exists_cons_of_ne_nil (h.name_ne name hmem)
  obtain ⟨tail, htail⟩ := Text.exists_intercalate_eq_cons separator (d := c) (a := cs)
    (rest.map String.toList)
  refine ⟨c, tail ++ ['\n'] ++ rows.flatMap (line separator), ?_,
    h.name_word name hmem c (hcs ▸ List.mem_cons_self)⟩
  rw [sheet, hnames, List.map_cons, hcs, line, htail]
  rfl

/-- The names are read from the first line. -/
theorem headerNames_intercalate :
    headerNames separator ([separator].intercalate (names.map String.toList)) = names := by
  have hreturn := return_notMem_intercalate h.separates h.name_plain
  have hne : names.map String.toList ≠ [] := fun hnil => h.names_ne (List.map_eq_nil_iff.1 hnil)
  -- there are as many attempts as characters, which is enough for the fields
  have hlength : (names.map String.toList).length ≤
      ([separator].intercalate (names.map String.toList)).length + 1 := by
    obtain ⟨f, fs, hfs⟩ := List.exists_cons_of_ne_nil hne
    have hle := Text.length_add_length_le separator f fs
    rw [hfs, List.length_cons]
    omega
  have hfields := scanFields_of_plain h.separates hne h.name_plain hlength .textEnd (by simp)
  rw [List.append_nil] at hfields
  have hnames : ((names.map String.toList).map fun cs => (⟨cs, false⟩ : Field)).map headerName =
      names := by
    rw [List.map_map, List.map_map]
    exact (List.map_congr_left fun name _ => String.ofList_toList).trans (List.map_id _)
  rw [headerNames, dropReturn_of_notMem hreturn, hfields, hnames,
    markRepeated_of_nodup h.nodup fun _ _ => List.not_mem_nil]

/-- The rows of a sheet are read as the fields they were written from. -/
theorem records?_flatMap :
    records? separator names.length (rows.flatMap (line separator)) = some (rowFields rows) := by
  have hn : 0 < names.length := List.length_pos_iff.2 h.names_ne
  have hcomplete := completeLines_flatMap h.unbroken
  rw [← flatMap_line, List.length_map] at hcomplete
  rw [records?, hcomplete]
  dsimp only
  rw [scanRecords?_flatMap h.separates hn h.row_length h.row_plain]
  simp [scanRecords?, rowFields]

/-- A sheet is cut into its names and fields, and its columns are made of these. -/
theorem readText?_sheet (hs : separator = Char.ofNat o.separator.toNat)
    (hseries : ((names.zip (columnTypes separator names.length
      (scanned o (rows.map [separator].intercalate)))).zipIdx.mapM fun p =>
        (cells? p.1.2 (fieldsAt (rowFields rows) p.2)).map (Series.mk p.1.1)) = some series)
    (hframe : Frame.ofSeries series = .ok f) :
    readText? o (sheet separator names rows) = some f := by
  obtain ⟨c, cs, hcs, hword⟩ := h.exists_sheet_eq_cons
  -- the first character is neither the mark of an encoding nor a line break
  have hmark : (sheet separator names rows).head? ≠ some '\ufeff' := by
    rw [hcs]
    rintro heq
    cases Option.some.inj heq
    exact absurd hword (by decide)
  have hstart : (sheet separator names rows).dropWhile isLineBreak =
      sheet separator names rows := by
    have hbreak : isLineBreak c = false := by
      rw [isLineBreak, Bool.or_eq_false_iff, beq_eq_false_iff_ne, beq_eq_false_iff_ne]
      constructor
      · rintro rfl
        exact absurd hword (by decide)
      · rintro rfl
        exact absurd hword (by decide)
    rw [hcs, List.dropWhile_cons_of_neg (by simp [hbreak])]
  have hempty : (sheet separator names rows).isEmpty = false := by
    rw [hcs]
    rfl
  -- the first line is the one of the names
  have hsplit : splitLine false (sheet separator names rows) =
      ([separator].intercalate (names.map String.toList), rows.flatMap (line separator)) := by
    rw [sheet, line, List.append_assoc, List.singleton_append]
    exact splitLine_append (unbroken_intercalate h.separates h.name_plain) _
  have hlines : lines false (rows.flatMap (line separator)) =
      rows.map [separator].intercalate := by
    rw [flatMap_line, lines_flatMap h.unbroken]
  subst hs
  unfold readText?
  dsimp only
  rw [if_neg hmark, hstart, hempty, hsplit]
  dsimp only
  rw [ite_self, hsplit, h.headerNames_intercalate, hlines]
  dsimp only
  rw [h.records?_flatMap, if_neg Bool.false_ne_true, Option.bind_some]
  refine Option.bind_eq_some_iff.2 ⟨series, hseries, ?_⟩
  rw [hframe]
  rfl

/-! ### Types -/

/-- The columns are of the types that the fields ask for, if no field asks for another one and each
type is asked for in a line that is looked at. -/
theorem columnTypes_sheet {types : List ColumnType} {ls : List (List Char)} {fs : List (List Char)}
    (hmem : fs ∈ rows) (hls : ∀ l ∈ ls, ∃ fs ∈ rows, l = [separator].intercalate fs)
    (hrows : ∀ fs ∈ rows, List.Forall₂ (fun cs type =>
      ∀ vote, fieldType? ⟨cs, false⟩ = some vote → vote = type) fs types)
    (hfs : [separator].intercalate fs ∈ ls)
    (hvotes : List.Forall₂ (fun cs type => fieldType? ⟨cs, false⟩ = some type) fs types) :
    columnTypes separator names.length ls = types := by
  have htypes : types.length = names.length := hvotes.length_eq.symm.trans (h.row_length fs hmem)
  -- the fields of a line are those that it was made of
  have hfields : ∀ gs ∈ rows, (scanFields separator names.length
      (dropReturn ([separator].intercalate gs))).1 = gs.map (⟨·, false⟩) := by
    intro gs hgs
    have hne : gs ≠ [] := by
      rintro rfl
      exact h.names_ne (List.length_eq_zero_iff.1 (h.row_length [] hgs).symm)
    have hscan := scanFields_of_plain h.separates hne (h.row_plain gs hgs)
      (h.row_length gs hgs).le .textEnd (by simp)
    rw [List.append_nil] at hscan
    rw [dropReturn_of_notMem (return_notMem_intercalate h.separates (h.row_plain gs hgs)), hscan]
  apply List.ext_getElem
  · rw [columnTypes, List.length_map, List.length_range, htypes]
  · intro i hi hi'
    simp only [columnTypes, List.getElem_map, List.getElem_range]
    apply unifyTypes_of_forall
    · -- the line that asks for all types asks for this one
      have hi'' : i < fs.length := hvotes.length_eq ▸ hi'
      refine List.ne_nil_of_mem (a := types[i]) (List.mem_filterMap.2
        ⟨_, List.mem_map_of_mem hfs, ?_⟩)
      rw [hfields fs hmem, List.getElem?_map, List.getElem?_eq_getElem hi'']
      exact hvotes.get hi'' hi'
    · -- and no other line contradicts it
      intro vote hvote
      obtain ⟨fields, hmap, hvote⟩ := List.mem_filterMap.1 hvote
      obtain ⟨l, hl, rfl⟩ := List.mem_map.1 hmap
      obtain ⟨gs, hgs, rfl⟩ := hls l hl
      have hi'' : i < gs.length := (hrows gs hgs).length_eq ▸ hi'
      rw [hfields gs hgs, List.getElem?_map, List.getElem?_eq_getElem hi''] at hvote
      exact (hrows gs hgs).get hi'' hi' vote hvote

end IsSheet

end Csv

/-! ### Tables -/

namespace Table

open Csv

/-- The fields that rows are written as. -/
def writtenRows (separator : Char) (rs : List Row) : List (List (List Char)) :=
  rs.map fun r => r.values.map (valueField separator)

/-- A table can be written without quotes: its columns are of integers or truth values, their names
consist of letters, digits and underscores, and the separator is in none of the names and cells. -/
structure WritesPlain (t : Table) (separator : Char) : Prop where
  types : ∀ p ∈ t.schema.columns, p.2 = .integer ∨ p.2 = .boolean
  names : ∀ name ∈ t.columnNames,
    name ≠ "" ∧ ∀ c ∈ name.toList, c.isAlphanum = true ∨ c = '_'
  name_separator : ∀ name ∈ t.columnNames, separator ∉ name.toList
  cell_separator : ∀ (k : Nat) (r : Row), t.row k = .ok r →
    ∀ v ∈ r.values, separator ∉ valueField separator v

/-- A name of letters, digits and underscores is a word. -/
theorem isWord_of_mem_name {name : String} {c : Char}
    (h : ∀ c ∈ name.toList, c.isAlphanum = true ∨ c = '_') (hc : c ∈ name.toList) :
    isWord c = true := by
  obtain hc | rfl := h c hc
  · rw [isWord, hc]
    rfl
  · rfl

namespace Holds

variable {t : Table} {n i : Nat} {cs : List Column} {c : Column} {vs : List Value} {rs : List Row}
  {r : Row} {o : Options} {separator : Char}

/-- Whatever the cells are, a separator that is no letter, digit or the like is in none of them. -/
theorem writesPlain_of_not_isWord (h : t.Holds n cs)
    (htypes : ∀ p ∈ t.schema.columns, p.2 = .integer ∨ p.2 = .boolean)
    (hnames : ∀ name ∈ t.columnNames,
      name ≠ "" ∧ ∀ c ∈ name.toList, c.isAlphanum = true ∨ c = '_')
    (hs : isWord separator = false) : t.WritesPlain separator := by
  refine ⟨htypes, hnames, fun name hname hmem => ?_, fun k r hrow v hv hmem => ?_⟩
  · rw [isWord_of_mem_name (hnames name hname).2 hmem] at hs
    cases hs
  · -- names and fields are words, and the separator is no part of one
    obtain ⟨p, hp, hpv⟩ := forall₂_exists_left (h.conforms_of_row hrow) hv
    rw [isWord_of_mem_valueField (htypes p hp) hpv hmem] at hs
    cases hs

/-- A table that is written plainly is written as a sheet. -/
theorem isSheet (h : t.Holds n cs) (hcs : cs ≠ []) (ht : WritesPlain t separator)
    (hs : Separates separator) (hrs : t.toRows = .ok rs) :
    IsSheet separator t.columnNames (writtenRows separator rs) := by
  -- what a sheet has to be like, for the names first and for the rows then
  refine ⟨hs, ?_, t.schema.nodup, ?_, ?_, ht.name_separator, ?_, ?_⟩
  · rw [h.columnNames_eq]
    exact fun hnil => hcs (List.map_eq_nil_iff.1 hnil)
  · exact fun name hname hnil => (ht.names name hname).1 (String.toList_eq_nil_iff.1 hnil)
  · exact fun name hname c hc => isWord_of_mem_name (ht.names name hname).2 hc
  · intro fs hfs
    obtain ⟨r, hr, rfl⟩ := List.mem_map.1 hfs
    rw [List.length_map, ← (h.conforms hrs hr).length_eq]
    exact (List.length_map Prod.fst).symm
  · intro fs hfs f hf
    obtain ⟨r, hr, rfl⟩ := List.mem_map.1 hfs
    obtain ⟨v, hv, rfl⟩ := List.mem_map.1 hf
    obtain ⟨p, hp, hpv⟩ := forall₂_exists_left (h.conforms hrs hr) hv
    obtain ⟨k, hrow⟩ := h.exists_row_of_mem hrs hr
    exact plain_of_isWord (fun c => isWord_of_mem_valueField (ht.types p hp) hpv)
      (ht.cell_separator k r hrow v hv)

/-- The fields at the position of a column are those of its values. -/
theorem fieldsAt_writtenRows (h : t.Holds n cs)
    (hsheet : IsSheet separator t.columnNames (writtenRows separator rs))
    (hrs : t.toRows = .ok rs) (hc : cs[i]? = some c) (hvs : c.values = .ok vs) :
    fieldsAt (rowFields (writtenRows separator rs)) i = vs.map (field separator) := by
  rw [fieldsAt, rowFields, writtenRows, List.map_map, List.map_map]
  refine List.forall₂_eq_eq_eq ▸ ?_
  rw [List.forall₂_map_left_iff, List.forall₂_map_right_iff]
  -- row by row, the field at the place of the column is that of its cell
  refine forall₂_imp_of_mem (h.forall₂_getElem? hrs hc hvs) fun r hr v hv => ?_
  have hplain : Plain separator (valueField separator v) :=
    hsheet.row_plain _ (List.mem_map_of_mem hr) _ (List.mem_map_of_mem (List.mem_of_getElem? hv))
  show (((r.values.map (valueField separator)).map (⟨·, false⟩ : List Char → Field))[i]?.getD
    ⟨[], false⟩).trimReturn = _
  rw [List.map_map, List.getElem?_map, hv]
  exact trimReturn_of_notMem hplain.return_notMem false

/-- A row whose cells all hold something asks for the types of the columns, and no row asks for
other ones. -/
theorem columnTypes_writtenRows (h : t.Holds n cs) (ht : WritesPlain t separator)
    (hsheet : IsSheet separator t.columnNames (writtenRows separator (r :: rs)))
    (hrs : t.toRows = .ok (r :: rs)) (hnull : ∀ v ∈ r.values, v.isNull = false)
    (ho : o.check = .ok ()) :
    columnTypes separator t.columnNames.length
      (scanned o ((writtenRows separator (r :: rs)).map [separator].intercalate)) =
        t.schema.types := by
  have hvote : ∀ q ∈ r :: rs, List.Forall₂ (fun v p => fieldType? (field separator v) =
      if v.isNull then none else some p.2) q.values t.schema.columns := fun q hq =>
    (forall₂_imp_of_mem (h.conforms hrs hq) fun p hp v hpv =>
      fieldType?_field (ht.types p hp) hpv).flip
  obtain ⟨rest, hscan, hsub⟩ := exists_scanned_cons ho
    ([separator].intercalate (r.values.map (valueField separator)))
    ((writtenRows separator rs).map [separator].intercalate)
  rw [writtenRows, List.map_cons, List.map_cons, ← writtenRows, hscan]
  have hfirst : r.values.map (valueField separator) ∈ writtenRows separator (r :: rs) :=
    List.mem_cons_self
  -- the first row votes for every column, and the others vote for the same or not at all
  refine hsheet.columnTypes_sheet hfirst ?_ ?_ List.mem_cons_self ?_
  · intro l hl
    obtain rfl | hl := List.mem_cons.1 hl
    · exact ⟨_, List.mem_cons_self, rfl⟩
    · obtain ⟨fs, hfs, rfl⟩ := List.mem_map.1 (hsub hl)
      exact ⟨fs, List.mem_cons_of_mem _ hfs, rfl⟩
  · intro fs hfs
    obtain ⟨q, hq, rfl⟩ := List.mem_map.1 hfs
    rw [Schema.types, List.forall₂_map_left_iff, List.forall₂_map_right_iff]
    refine (hvote q hq).imp fun v p hvp vote hv => ?_
    -- an empty cell asks for no type
    split at hvp
    · cases hvp.symm.trans hv
    · exact Option.some.inj (hv.symm.trans hvp)
  · rw [Schema.types, List.forall₂_map_left_iff, List.forall₂_map_right_iff]
    refine forall₂_imp_of_mem (hvote r List.mem_cons_self) fun v hv p hvp => ?_
    rw [hnull v hv] at hvp
    exact hvp

/-- The series that are made of the fields are those of the table. -/
theorem series_writtenRows (h : t.Holds n cs) (ht : t.WritesPlain separator)
    (hsheet : IsSheet separator t.columnNames (writtenRows separator rs))
    (hrs : t.toRows = .ok rs) :
    ((t.columnNames.zip t.schema.types).zipIdx.mapM fun p =>
      (cells? p.1.2 (fieldsAt (rowFields (writtenRows separator rs)) p.2)).map (Series.mk p.1.1)) =
        some (cs.map Column.series) := by
  have hzip : t.columnNames.zip t.schema.types = cs.map Column.entry := by
    show (t.schema.columns.map Prod.fst).zip (t.schema.columns.map Prod.snd) = _
    rw [List.zip_map', h.columns_eq, List.map_map]
    rfl
  rw [hzip, mapM_eq_some_iff, List.forall₂_iff_get]
  refine ⟨by simp, fun i hi hi' => ?_⟩
  rw [List.length_map] at hi'
  have hc : cs[i] ∈ cs := List.getElem_mem hi'
  obtain ⟨vs, hvs, -, haccepts⟩ := (h.canonical _ hc).exists_values
  -- the series at this position is made of its own values again
  have htype : cs[i].type = .integer ∨ cs[i].type = .boolean :=
    ht.types cs[i].entry (h.columns_eq ▸ List.mem_map_of_mem hc)
  have hseries : Series.ofValues cs[i].name cs[i].type vs = .ok cs[i].series :=
    Series.ofValues_eq_ok_iff.2 ⟨haccepts, (h.canonical _ hc).name_eq, hvs⟩
  simp only [List.get_eq_getElem, List.getElem_zipIdx, List.getElem_map, Nat.zero_add, Column.entry]
  rw [h.fieldsAt_writtenRows hsheet hrs (List.getElem?_eq_getElem hi') hvs,
    cells?_field htype hseries, Option.map_some, ← (h.canonical _ hc).name_eq]

/-- What is written of a table is read as its frame. -/
theorem exists_sheet (h : t.Holds n cs) (hn : 0 < n) (hcs : cs ≠ [])
    (ht : t.WritesPlain (Char.ofNat o.separator.toNat))
    (hnull : ∀ r, t.row 0 = .ok r → ∀ v ∈ r.values, v.isNull = false) (ho : o.check = .ok ()) :
    ∃ text, t.document .csv o = .ok text ∧
      Reading.ofEntry .csv o (.file (String.ofList text).toUTF8) = .frame t.frame := by
  obtain ⟨r, rs, hrs, hr⟩ := h.exists_toRows_cons hn
  have hsheet := h.isSheet hcs ht (separates_of_check ho) hrs
  -- the document is the sheet of the names and the written rows
  have hdocument : t.document .csv o = .ok (sheet (Char.ofNat o.separator.toNat) t.columnNames
      (writtenRows (Char.ofNat o.separator.toNat) (r :: rs))) := by
    have hwritten : writtenRows (Char.ofNat o.separator.toNat) (r :: rs) = ((r :: rs).map
        Row.values).map fun vs => vs.map (valueField (Char.ofNat o.separator.toNat)) :=
      List.map_map.symm
    rw [Table.document, hrs, ← hsheet.render_eq_sheet hwritten]
    rfl
  have hframe : Frame.ofSeries (cs.map Column.series) = .ok t.frame := by
    rw [h.frame_eq]
    exact Frame.ofSeries_of_forall (fun hs => hcs (List.map_eq_nil_iff.1 hs)) h.length_series
      h.nodup_series
  refine ⟨_, hdocument, ?_⟩
  show Reading.ofOption ((decode? _).bind (readText? o)) = _
  rw [decode?, Utf8.strict?_toUTF8]
  refine congrArg Reading.ofOption (hsheet.readText?_sheet rfl ?_ hframe)
  rw [h.columnTypes_writtenRows ht hsheet hrs (hnull r hr) ho]
  exact h.series_writtenRows ht hsheet hrs

end Holds

end Table

end Tabula
