import Tabula.Proofs.Documents
import Tabula.Proofs.Rows

/-!
# Columns inferred from records

A document does not say which columns it has. They are inferred from the records: each has a shape,
and the shapes of the records that are scanned are merged. A record without nulls has the shape of
the columns it was written from, and records with nulls add nothing to it; so the columns come back
if such a record is the first, however many more are scanned.

* `fields?_recordJson` — the shape of one record.
* `mergeFields_eq_left` — merging leaves fields alone that leave nothing to be added.
* `columns?_recordShape` — the columns of all records that are scanned.
* `cells?_cellJson` — the cells of a column, read from the values that were written.
* `Table.Holds.exists_document` — the document of a table is read as its frame.
-/

namespace Tabula.Records

variable {v : Value} {vs ws : List Value} {m : String × Value} {ms : List (String × Value)}
  {names : List String} {columns : List (String × ColumnType)} {o : Options} {fuel : Nat}

/-! ### Shapes of records -/

/-- The shape of the values that a column type has, nulls apart. -/
def typeShape : ColumnType → Shape
  | .integer => .int
  | .float => .float
  | .string => .text
  | .boolean => .bool

/-- The shape of a cell. -/
def cellShape (v : Value) : Shape := v.columnType?.elim .null typeShape

/-- The fields of a record with their shapes. -/
def recordShape (names : List String) (vs : List Value) : List (String × Shape) :=
  (names.zip vs).map fun m => (m.1, cellShape m.2)

/-- The fields of a record that has all columns. -/
def columnShapes (columns : List (String × ColumnType)) : List (String × Shape) :=
  columns.map fun c => (c.1, typeShape c.2)

/-- A value of any column but a float one is written without loss. -/
theorem exact_of_accepts {t : ColumnType} (ht : t ≠ .float) (hv : t.accepts v = true) :
    Exact v := by
  intro hfloat
  cases v with
  | float x => exact ht (of_decide_eq_true hv).symm
  | _ => cases hfloat

/-- A row of a table without float columns fits a record of its names. -/
theorem fits_of_conforms (h : Conforms columns vs) (hc : ∀ c ∈ columns, c.2 ≠ .float) :
    Fits (columns.map Prod.fst) vs := by
  refine ⟨?_, fun v hv => ?_⟩
  · rw [List.length_map]
    exact h.length_eq.symm
  · obtain ⟨c, hmem, hcv⟩ := forall₂_exists_left h hv
    exact exact_of_accepts (hc c hmem) hcv

/-- Every integer of 64 bits is in the range of JSON numbers. -/
theorem numeral?_ofInt (i : Int64) :
    (Json.Number.ofInt i.toInt).numeral? = some (.int i.toInt) := by
  have hlow := i.le_toInt
  have hhigh := i.toInt_lt
  have hmin := Int64.toInt_minValue
  have hsize : (UInt64.size : Int) = 2 ^ 64 := rfl
  rw [Json.Number.numeral?, Json.Number.integer?_ofInt]
  exact if_pos ⟨by omega, by omega⟩

/-- The shape of a written cell is the shape of the cell. -/
theorem ofJson?_cellJson (hv : Exact v) : Shape.ofJson? fuel (cellJson v) = some (cellShape v) := by
  cases v with
  | null => rw [cellJson, Shape.ofJson?]; rfl
  | boolean b => rw [cellJson, Shape.ofJson?]; rfl
  | integer i => rw [cellJson, Shape.ofJson?, numeral?_ofInt]; rfl
  | float x => exact absurd rfl hv
  | string s => rw [cellJson, Shape.ofJson?]; rfl

/-- The same for the members of a record, one after the other. -/
theorem ofMembers?_memberJson (h : ∀ m ∈ ms, Exact m.2) :
    Shape.ofMembers? fuel (ms.map memberJson) = some (ms.map fun m => (m.1, cellShape m.2)) := by
  induction ms with
  | nil => rw [List.map_nil, Shape.ofMembers?]; rfl
  | cons m ms ih =>
    obtain ⟨hm, hms⟩ := List.forall_mem_cons.1 h
    rw [List.map_cons, memberJson, Shape.ofMembers?, ofJson?_cellJson hm, ih hms]
    rfl

theorem Fits.map_fst_zip (h : Fits names vs) : (names.zip vs).map Prod.fst = names :=
  List.map_fst_zip h.length_eq.ge

/-- A record has the names as fields, if no name occurs twice. -/
theorem fields?_recordJson (hn : names.Nodup) (h : Fits names vs) :
    fields? fuel (recordJson names vs) = some (recordShape names vs) := by
  have hmembers : Shape.ofMembers? fuel ((names.zip vs).map memberJson) =
      some (recordShape names vs) :=
    ofMembers?_memberJson fun m hm => h.exact m.2 (List.of_mem_zip hm).2
  have hkeys : ((recordShape names vs).map Prod.fst).Nodup := by
    rw [recordShape, List.map_map]
    show ((names.zip vs).map Prod.fst).Nodup
    rwa [h.map_fst_zip]
  have hshape : Shape.ofJson? fuel (recordJson names vs) =
      some (.record (recordShape names vs)) := by
    rw [recordJson, Shape.ofJson?, hmembers]
    exact if_pos hkeys
  rw [fields?, hshape]

/-! ### Merging -/

/-- A fold that no element moves ends where it began. -/
theorem foldlM_eq_some_of_forall {α β : Type} {f : α → β → Option α} {a : α} {bs : List β}
    (h : ∀ b ∈ bs, f a b = some a) : bs.foldlM f a = some a := by
  induction bs with
  | nil => rfl
  | cons b bs ih =>
    obtain ⟨hb, hbs⟩ := List.forall_mem_cons.1 h
    rw [List.foldlM_cons, hb]
    exact ih hbs

/-- Fields stay as they are if every other field is one of them and adds nothing to its shape. -/
theorem mergeFields_eq_left {unify? : Shape → Shape → Option Shape} {fs gs : List (String × Shape)}
    (hlength : gs.length ≤ fs.length) (hn : (fs.map Prod.fst).Nodup)
    (h : ∀ g ∈ gs, ∃ s, (g.1, s) ∈ fs ∧ unify? s g.2 = some s) :
    mergeFields unify? fs gs = some fs := by
  rw [mergeFields, if_neg (not_lt.2 hlength)]
  refine foldlM_eq_some_of_forall fun g hg => ?_
  obtain ⟨s, hs, hunify⟩ := h g hg
  have hlookup : fs.lookup g.1 = some s := (lookup_eq_some_iff_mem hn).2 hs
  -- the one field of the name has the unified shape already
  have hkeep : (fs.map fun f => if f.1 = g.1 then (g.1, s) else f) = fs := by
    refine (List.map_congr_left fun f hf => ?_).trans (List.map_id fs)
    split
    · next hfg => exact (List.inj_on_of_nodup_map hn hf hs hfg).symm
    · rfl
  dsimp only
  rw [hlookup]
  dsimp only
  rw [hunify, Option.map_some, hkeep]

/-- A record without nulls has the shapes of the columns. -/
theorem recordShape_eq_columnShapes (h : Conforms columns vs)
    (hnull : ∀ v ∈ vs, v.isNull = false) :
    recordShape (columns.map Prod.fst) vs = columnShapes columns := by
  induction h with
  | nil => rfl
  | @cons c v columns vs hv _ ih =>
    obtain ⟨hfirst, hrest⟩ := List.forall_mem_cons.1 hnull
    have htype : v.columnType? = some c.2 := by
      -- a value the column accepts is null or of its type, and the row has no nulls
      obtain h | h := accepts_iff.1 hv
      · rw [hfirst] at h
        cases h
      · exact h
    have hshape : cellShape v = typeShape c.2 := by
      rw [cellShape, htype]
      rfl
    show (c.1, cellShape v) :: recordShape (columns.map Prod.fst) vs = _
    rw [ih hrest, hshape]
    rfl

/-- Whatever a record has in a column adds nothing to the shape of the column. -/
theorem unify?_of_mem_recordShape (h : Conforms columns vs) {g : String × Shape}
    (hg : g ∈ recordShape (columns.map Prod.fst) vs) :
    ∃ s, (g.1, s) ∈ columnShapes columns ∧ Shape.unify? (fuel + 1) s g.2 = some s := by
  induction h with
  | nil => cases hg
  | @cons c v columns vs hv _ ih =>
    obtain rfl | hg := List.mem_cons.1 (show g ∈ (c.1, cellShape v) :: recordShape _ vs from hg)
    · refine ⟨typeShape c.2, List.mem_cons_self, ?_⟩
      -- the value is null, which adds nothing to any shape, or it has the shape of its column
      obtain ⟨name, type⟩ := c
      cases v <;> cases type <;> first | rfl | cases hv
    · obtain ⟨s, hs, hunify⟩ := ih hg
      exact ⟨s, List.mem_cons_of_mem _ hs, hunify⟩

/-- The shape of a row adds nothing to the shapes of the columns it conforms to: a cell has the
shape of its column or that of null. -/
theorem mergeFields_columnShapes (hn : (columns.map Prod.fst).Nodup) (h : Conforms columns vs) :
    mergeFields (Shape.unify? (fuel + 1)) (columnShapes columns)
      (recordShape (columns.map Prod.fst) vs) = some (columnShapes columns) := by
  have hkeys : (columnShapes columns).map Prod.fst = columns.map Prod.fst := List.map_map
  refine mergeFields_eq_left ?_ (hkeys ▸ hn) fun g hg => unify?_of_mem_recordShape h hg
  rw [recordShape, columnShapes, List.length_map, List.length_map, List.length_zip,
    List.length_map]
  exact Nat.min_le_left _ _

/-- The columns come out of the first record if it is without nulls, whatever records follow. -/
theorem columns?_recordShape {rest : List (List (String × Shape))}
    (hn : (columns.map Prod.fst).Nodup) (h : Conforms columns vs)
    (hnull : ∀ v ∈ vs, v.isNull = false)
    (hrest : ∀ fields ∈ rest, ∃ ws, Conforms columns ws ∧
      fields = recordShape (columns.map Prod.fst) ws) :
    columns? (fuel + 1) (recordShape (columns.map Prod.fst) vs :: rest) =
      some (columnShapes columns) := by
  rw [columns?, recordShape_eq_columnShapes h hnull]
  refine foldlM_eq_some_of_forall fun fields hfields => ?_
  obtain ⟨ws, hws, rfl⟩ := hrest fields hfields
  exact mergeFields_columnShapes hn hws

/-! ### Cells -/

/-- The members of a record with their values. -/
def recordMembers (names : List String) (vs : List Value) : List (String × Json) :=
  (names.zip vs).map fun m => (m.1, cellJson m.2)

theorem members?_recordJson : members? (recordJson names vs) = some (recordMembers names vs) :=
  mapM_map_eq_some fun _ _ => rfl

/-- A written record names no field but the columns. -/
theorem hasOnly_recordMembers :
    hasOnly (columnShapes columns) (recordMembers (columns.map Prod.fst) vs) = true := by
  rw [hasOnly, List.all_eq_true]
  intro row hrow
  obtain ⟨m, hm, rfl⟩ := List.mem_map.1 hrow
  have hkey : m.1 ∈ (columnShapes columns).map Prod.fst := by
    rw [columnShapes, List.map_map]
    exact (List.of_mem_zip hm).1
  obtain ⟨s, hs⟩ := exists_lookup_eq_some_iff.2 hkey
  exact Option.isSome_iff_exists.2 ⟨s, hs⟩

/-- A record has the value of a column under its name. -/
theorem lookup_recordMembers (hn : names.Nodup) (h : vs.length = names.length) {i : Nat}
    {name : String} (hname : names[i]? = some name) (hv : vs[i]? = some v) :
    (recordMembers names vs).lookup name = some (cellJson v) := by
  have hkeys : ((recordMembers names vs).map Prod.fst).Nodup := by
    rw [recordMembers, List.map_map]
    show ((names.zip vs).map Prod.fst).Nodup
    rwa [List.map_fst_zip h.ge]
  have hmem : (name, v) ∈ names.zip vs :=
    List.mem_of_getElem? (List.getElem?_zip_eq_some.2 ⟨hname, hv⟩)
  exact (lookup_eq_some_iff_mem hkeys).2 (List.mem_map_of_mem hmem)

/-- An integer cell is read back as it was written. -/
theorem intCell?_cellJson (h : ColumnType.integer.accepts v = true) :
    intCell? (cellJson v) = some v.int64? := by
  cases v with
  | null => rfl
  | integer i =>
    rw [cellJson, intCell?, numeral?_ofInt]
    exact congrArg some (Integer64.ofInt?_eq_some_iff.2 rfl)
  | _ => cases h

/-- A boolean cell is read back as it was written. -/
theorem boolCell?_cellJson (h : ColumnType.boolean.accepts v = true) :
    boolCell? (cellJson v) = some v.bool? := by
  cases v with
  | null => rfl
  | boolean b => rfl
  | _ => cases h

/-- A text cell is read back as it was written. -/
theorem textCell?_cellJson (h : ColumnType.string.accepts v = true) :
    textCell? (cellJson v) = some v.string? := by
  cases v with
  | null => rfl
  | string s => rfl
  | _ => cases h

/-- The cells that are read are those of the series that was written. -/
theorem cells?_cellJson {layout : RecordLayout} {t : ColumnType} {name : String} {s : Series}
    (ht : t ≠ .float) (hs : Series.ofValues name t ws = .ok s) :
    cells? layout (typeShape t) (ws.map cellJson) = some s.cells := by
  have hws : ∀ w ∈ ws, t.accepts w = true := (Series.ofValues_eq_ok_iff.1 hs).1
  have hfind : ws.find? (fun w => !t.accepts w) = none := by simpa using hws
  unfold Series.ofValues at hs
  rw [hfind] at hs
  obtain rfl := Except.ok.inj hs
  -- each type but float, which is left out, has an exact reader of cells of its own
  cases t with
  | integer =>
    show ((ws.map cellJson).mapM intCell?).map _ = _
    rw [mapM_map_eq_some fun w hw => intCell?_cellJson (hws w hw)]
    rfl
  | float => exact absurd rfl ht
  | string =>
    show ((ws.map cellJson).mapM textCell?).map _ = _
    rw [mapM_map_eq_some fun w hw => textCell?_cellJson (hws w hw)]
    rfl
  | boolean =>
    show ((ws.map cellJson).mapM boolCell?).map _ = _
    rw [mapM_map_eq_some fun w hw => boolCell?_cellJson (hws w hw)]
    rfl

/-- How a frame is read: shapes, columns, members and series, one after the other. -/
theorem ofItems?_eq_some {items : List Json} {shapes : List (List (String × Shape))}
    {fields : List (String × Shape)} {members : List (List (String × Json))}
    {series : List Series} {f : Frame} (hshapes : items.mapM (fields? fuel) = some shapes)
    (hfields : columns? fuel (scanned o shapes) = some fields)
    (hmembers : items.mapM members? = some members)
    (honly : members.all (hasOnly fields) = true)
    (hseries : (fields.mapM fun p => (cells? o.layout p.2
      (members.map fun row => (row.lookup p.1).getD .null)).map (Series.mk p.1)) = some series)
    (hframe : Frame.ofSeries series = .ok f) : ofItems? o fuel items = some f := by
  rw [ofItems?, hshapes]
  show (columns? fuel (scanned o shapes)).bind _ = _
  rw [hfields]
  show (items.mapM members?).bind _ = _
  rw [hmembers]
  have hguard : (guard (o.layout = .lines ∨ members.all (hasOnly fields) = true) : Option Unit) =
      some () := if_pos (.inr honly)
  show Option.bind (guard (o.layout = .lines ∨ members.all (hasOnly fields) = true)) _ = _
  -- the guard asks for known fields only where the records stand in an array
  rw [hguard]
  show (fields.mapM fun p => (cells? o.layout p.2
    (members.map fun row => (row.lookup p.1).getD .null)).map (Series.mk p.1)).bind _ = _
  rw [hseries]
  show (Frame.ofSeries series).toOption = _
  rw [hframe]
  rfl

/-! ### Documents as files -/

/-- Text that begins with a bracket is not taken for compressed, since its first byte begins none of
the marks. -/
theorem looksCompressed_bracket (text : List Char) :
    looksCompressed (String.ofList ('[' :: text)).toUTF8 = false := by
  have hbytes : (String.ofList ('[' :: text)).toUTF8.data.toList =
      0x5b :: text.flatMap String.utf8EncodeChar := by
    rw [String.toUTF8, String.toByteArray_ofList, List.utf8Encode, List.data_toByteArray]
    rfl
  -- no mark begins with the byte of the bracket
  have hmarks : (compressionMarks.any fun mark =>
      mark.isPrefixOf (0x5b :: text.flatMap String.utf8EncodeChar)) = false := rfl
  rw [looksCompressed, hbytes, hmarks, Bool.and_false]

/-- What is written is never taken for compressed data: an array of records begins with a bracket,
and in the other layout nobody looks. -/
theorem ofJson_render (o : Options) (names : List String) (rows : List (List Value)) :
    Reading.ofJson o (.file (String.ofList (Records.render o.layout names rows)).toUTF8) =
      .ofOption (readText? o (Records.render o.layout names rows)) := by
  have hmark : ¬(o.layout = .records ∧
      looksCompressed (String.ofList (Records.render o.layout names rows)).toUTF8 = true) := by
    -- only the array of records is looked at for marks, and it begins with a bracket
    rintro ⟨hlayout, hlooks⟩
    rw [hlayout, Records.render, List.cons_append, looksCompressed_bracket] at hlooks
    cases hlooks
  rw [Reading.ofJson, if_neg hmark]
  show Reading.ofOption ((Utf8.strict? _).bind (readText? o)) = _
  rw [Utf8.strict?_toUTF8]
  rfl

end Tabula.Records

namespace Tabula

/-! ### Tables -/

namespace Table.Holds

open Records

variable {t : Table} {n fuel : Nat} {cs : List Column} {rs : List Row} {r : Row} {o : Options}

/-- A table without float columns has none in its schema. -/
theorem exact_types (h : t.Holds n cs) (hfloat : ∀ c ∈ cs, c.type ≠ .float) :
    ∀ p ∈ t.schema.columns, p.2 ≠ .float := by
  rw [h.columns_eq]
  intro p hp
  obtain ⟨c, hc, rfl⟩ := List.mem_map.1 hp
  exact hfloat c hc

/-- Under the name of a column the records have its values. -/
theorem map_lookup_recordMembers (h : t.Holds n cs) (hrs : t.toRows = .ok rs) {c : Column}
    (hc : c ∈ cs) {vs : List Value} (hvs : c.values = .ok vs) :
    ((rs.map fun q => recordMembers t.columnNames q.values).map
      fun row => (row.lookup c.name).getD .null) = vs.map cellJson := by
  obtain ⟨i, hi⟩ := List.mem_iff_getElem?.1 hc
  have hname : t.columnNames[i]? = some c.name := by
    rw [h.columnNames_eq, List.getElem?_map, hi]
    rfl
  rw [List.map_map]
  refine List.forall₂_eq_eq_eq ▸ ?_
  rw [List.forall₂_map_left_iff, List.forall₂_map_right_iff]
  -- row by row: the member under the column's name is the cell at the column's place
  refine forall₂_imp_of_mem (h.forall₂_getElem? hrs hi hvs) fun r hr v hget => ?_
  have hlength : r.values.length = t.columnNames.length :=
    (h.conforms hrs hr).length_eq.symm.trans (List.length_map Prod.fst).symm
  have hlookup : (recordMembers t.columnNames r.values).lookup c.name = some (cellJson v) :=
    lookup_recordMembers t.schema.nodup hlength hname hget
  show ((recordMembers t.columnNames r.values).lookup c.name).getD .null = _
  rw [hlookup]
  rfl

/-- The records of the rows are read as the frame that they were written from. -/
theorem ofItems?_recordJson (h : t.Holds n cs) (hcs : cs ≠ []) (hfloat : ∀ c ∈ cs, c.type ≠ .float)
    (hrs : t.toRows = .ok (r :: rs)) (hnull : ∀ v ∈ r.values, v.isNull = false)
    (ho : o.check = .ok ()) :
    ofItems? o (fuel + 1) ((r :: rs).map fun q => recordJson t.columnNames q.values) =
      some t.frame := by
  have hconforms : ∀ q ∈ r :: rs, Conforms t.schema.columns q.values := fun q hq =>
    h.conforms hrs hq
  have hshapes : ((r :: rs).map fun q => recordJson t.columnNames q.values).mapM
      (fields? (fuel + 1)) =
        some ((r :: rs).map fun q => recordShape t.columnNames q.values) := by
    refine mapM_map_eq_some fun q hq => ?_
    exact fields?_recordJson t.schema.nodup
      (fits_of_conforms (hconforms q hq) (h.exact_types hfloat))
  have hfields : columns? (fuel + 1)
      (scanned o ((r :: rs).map fun q => recordShape t.columnNames q.values)) =
        some (columnShapes t.schema.columns) := by
    obtain ⟨rest, hscan, hsub⟩ := exists_scanned_cons ho (recordShape t.columnNames r.values)
      (rs.map fun q => recordShape t.columnNames q.values)
    rw [List.map_cons, hscan]
    -- the first record has no nulls and the others add nothing, however many are scanned
    refine columns?_recordShape t.schema.nodup (hconforms r List.mem_cons_self) hnull ?_
    intro fields hfields
    obtain ⟨q, hq, rfl⟩ := List.mem_map.1 (hsub hfields)
    exact ⟨q.values, hconforms q (List.mem_cons_of_mem _ hq), rfl⟩
  have hmembers : ((r :: rs).map fun q => recordJson t.columnNames q.values).mapM members? =
      some ((r :: rs).map fun q => recordMembers t.columnNames q.values) :=
    mapM_map_eq_some fun q _ => members?_recordJson
  have honly : (((r :: rs).map fun q => recordMembers t.columnNames q.values).all
      (hasOnly (columnShapes t.schema.columns))) = true := by
    rw [List.all_map, List.all_eq_true]
    exact fun q _ => hasOnly_recordMembers
  have hframe : Frame.ofSeries (cs.map Column.series) = .ok t.frame := by
    rw [h.frame_eq]
    exact Frame.ofSeries_of_forall (fun hs => hcs (List.map_eq_nil_iff.1 hs)) h.length_series
      h.nodup_series
  -- what is left are the series, which are read back column by column
  refine ofItems?_eq_some hshapes hfields hmembers honly ?_ hframe
  rw [h.columns_eq, columnShapes, List.map_map]
  refine mapM_map_eq_some fun c hc => ?_
  obtain ⟨vs, hvs, -, haccepts⟩ := (h.canonical c hc).exists_values
  have hseries : Series.ofValues c.name c.type vs = .ok c.series :=
    Series.ofValues_eq_ok_iff.2 ⟨haccepts, (h.canonical c hc).name_eq, hvs⟩
  dsimp only [Function.comp_apply, Column.entry]
  rw [h.map_lookup_recordMembers hrs hc hvs, cells?_cellJson (hfloat c hc) hseries,
    Option.map_some, ← (h.canonical c hc).name_eq]

/-- The document of a table whose first row has no nulls is read as its frame, in either layout and
however many records are scanned. -/
theorem readText?_render (h : t.Holds n cs) (hcs : cs ≠ []) (hfloat : ∀ c ∈ cs, c.type ≠ .float)
    (hrs : t.toRows = .ok (r :: rs)) (hnull : ∀ v ∈ r.values, v.isNull = false)
    (ho : o.check = .ok ()) :
    readText? o (Records.render o.layout t.columnNames ((r :: rs).map Row.values)) =
      some t.frame := by
  have hnames : t.columnNames ≠ [] := by
    rw [h.columnNames_eq]
    exact fun hnil => hcs (List.map_eq_nil_iff.1 hnil)
  have hfits : ∀ vs ∈ (r :: rs).map Row.values, Fits t.columnNames vs := by
    intro vs hvs
    obtain ⟨q, hq, rfl⟩ := List.mem_map.1 hvs
    exact fits_of_conforms (h.conforms hrs hq) (h.exact_types hfloat)
  have hitems : items? o.layout (Records.render o.layout t.columnNames ((r :: rs).map Row.values)) =
      some ((r :: rs).map fun q => recordJson t.columnNames q.values) := by
    have hmap : ((r :: rs).map fun q => recordJson t.columnNames q.values) =
        ((r :: rs).map Row.values).map (recordJson t.columnNames) := by
      rw [List.map_map]
      rfl
    rw [hmap]
    -- both layouts split the text into the same records
    cases o.layout with
    | records => exact items?_records hnames (List.cons_ne_nil _ _) hfits
    | lines => exact items?_lines hnames hfits
  generalize Records.render o.layout t.columnNames ((r :: rs).map Row.values) = text at hitems ⊢
  -- the text is not empty, as there is a record in it
  obtain ⟨fuel, hfuel⟩ : ∃ fuel, text.length = fuel + 1 := by
    cases text with
    | nil =>
      cases hlayout : o.layout with
      | records =>
        rw [hlayout] at hitems
        cases hitems
      | lines =>
        rw [hlayout] at hitems
        cases hitems
    | cons c text => exact ⟨text.length, rfl⟩
  rw [readText?, hitems]
  show ofItems? o text.length _ = _
  rw [hfuel]
  exact h.ofItems?_recordJson hcs hfloat hrs hnull ho

/-- What is written of a table is read as its frame. -/
theorem exists_document (h : t.Holds n cs) (hn : 0 < n) (hcs : cs ≠ [])
    (hfloat : ∀ c ∈ cs, c.type ≠ .float)
    (hnull : ∀ r, t.row 0 = .ok r → ∀ v ∈ r.values, v.isNull = false) (ho : o.check = .ok ()) :
    ∃ text, t.document .json o = .ok text ∧
      Reading.ofEntry .json o (.file (String.ofList text).toUTF8) = .frame t.frame := by
  obtain ⟨r, rs, hrs, hr⟩ := h.exists_toRows_cons hn
  have hdocument : t.document .json o =
      .ok (Records.render o.layout t.columnNames ((r :: rs).map Row.values)) := by
    rw [Table.document, hrs]
    rfl
  refine ⟨_, hdocument, ?_⟩
  rw [Reading.ofEntry, ofJson_render, h.readText?_render hcs hfloat hrs (hnull r hr) ho]
  rfl

end Table.Holds

end Tabula
