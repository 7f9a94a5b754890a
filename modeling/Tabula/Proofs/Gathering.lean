import Tabula.Proofs.Rows

/-!
# Tables gathered from rows

Rows are turned into columns position by position: the values that they hold at a position become a
series of the type that the schema declares there. Neither a missing position nor a value of another
type can get in the way, and this is not because it was checked, but because of how rows come about.
There are two ways. A row is made of values that are held against a schema, or it is read from a
table; and either way it has one value for each column of its schema, empty or of the type of the
column. What is left to refuse is rows that disagree in their schemas. Whether they share one does
not matter for this, only for whether the schemas are looked at.

* `Row.Fits` — the values go with the schema, and `Row.ofValues_eq_ok_iff`,
  `Row.ofValues_eq_error_iff` — this is what values are accepted or refused for.
* `Run.fits` — whatever row comes up in a run fits.
* `Table.Gathered` — the table has exactly the rows, and `Table.gathered_of_fits` — rows that fit
  one schema are gathered.
* `Run.rows_gathered` — of the rows of a run a table can be made exactly if their schemas agree.
-/

namespace Tabula

variable {α : Type} {schema : Schema} {values vs : List Value} {r first : Row} {rows rs : List Row}
  {e : Error} {t : Table} {n k i : Nat} {cs : List Column} {c : Column} {w : World}

/-! ### Values and schemas -/

namespace Row

/-- The row has one value for each column of its schema, empty or of the type of the column. -/
def Fits (r : Row) : Prop :=
  List.Forall₂ (fun (c : String × ColumnType) v => v.isNull = true ∨ v.columnType? = some c.2)
    r.schema.columns r.values

/-- A row fits its schema if each value is accepted in its column. -/
theorem fits_iff_conforms : r.Fits ↔ Conforms r.schema.columns r.values := by
  simp only [Fits, Conforms, accepts_iff]

/-- The value is there, and is of another type than the column that it was given for. -/
def Misfit (p : (String × ColumnType) × Value) : Prop :=
  p.2.isNull = false ∧ p.2.columnType? ≠ some p.1.2

/-- A value that is not accepted is neither null nor of the type. -/
theorem misfit_iff {p : (String × ColumnType) × Value} :
    (!p.1.2.accepts p.2) = true ↔ Misfit p := by
  simp only [Bool.not_eq_true', ← Bool.not_eq_true, accepts_iff, not_or, Misfit, Ne]

/-- The reported value is the first that is not accepted. -/
theorem misfit?_eq_some_iff {columns : List (String × ColumnType)}
    {p : (String × ColumnType) × Value} :
    misfit? columns values = some p ↔ FirstWith Misfit (columns.zip values) p := by
  rw [misfit?, find?_eq_some_iff_firstWith]
  simp only [misfit_iff]

/-- A row fits if it passes both checks. -/
theorem fits_iff : r.Fits ↔
    r.values.length = r.schema.length ∧ misfit? r.schema.columns r.values = none := by
  rw [fits_iff_conforms, Conforms, List.forall₂_iff_zip, misfit?, List.find?_eq_none]
  constructor
  · rintro ⟨hlength, hall⟩
    exact ⟨hlength.symm, fun p hp => by simp [hall hp]⟩
  · rintro ⟨hlength, hnone⟩
    exact ⟨hlength.symm, fun hp => by simpa using hnone _ hp⟩

/-- A row is made exactly of values that fit. -/
theorem ofValues_eq_ok_iff : ofValues schema values = .ok r ↔ r = ⟨schema, values⟩ ∧ r.Fits := by
  rw [ofValues]
  constructor
  · intro h
    -- the length is checked first, and then the values one by one
    split at h
    · cases h
    · next hlength =>
      split at h
      · cases h
      · next hnone =>
        obtain rfl := Except.ok.inj h
        exact ⟨rfl, fits_iff.2 ⟨not_not.1 hlength, hnone⟩⟩
  · rintro ⟨rfl, hfits⟩
    obtain ⟨hlength, hnone⟩ := fits_iff.1 hfits
    rw [if_neg (not_not_intro hlength), hnone]

/-- Values are refused for their number, and otherwise for the first of them that does not fit. -/
theorem ofValues_eq_error_iff : ofValues schema values = .error e ↔
    values.length ≠ schema.length ∧ e = .schemaMismatch ∨
    values.length = schema.length ∧ ∃ name type v,
      FirstWith Misfit (schema.columns.zip values) ((name, type), v) ∧
        e = .typeMismatch name type v.typeName := by
  rw [ofValues]
  -- a wrong length is reported before any value
  by_cases hlength : values.length = schema.length
  · rw [if_neg (not_not_intro hlength)]
    simp only [hlength, ne_eq, not_true_eq_false, false_and, true_and, false_or,
      ← misfit?_eq_some_iff]
    cases misfit? schema.columns values with
    | none => simp
    | some p =>
      obtain ⟨⟨name, type⟩, v⟩ := p
      simp [eq_comm]
  · rw [if_pos hlength]
    simp [hlength, eq_comm]

end Row

/-! ### The rows of a run -/

/-- A row that is read from a table fits. -/
theorem Table.Holds.fits_of_row (h : t.Holds n cs) {index : Int} (hr : t.row index = .ok r) :
    r.Fits := by
  obtain ⟨hschema, -⟩ := h.row_spec hr
  obtain ⟨k, hk, -⟩ := bind_eq_ok_iff.1 hr
  obtain ⟨rfl, -⟩ := checkedIndex_eq_ok_iff.1 hk
  rw [Row.fits_iff_conforms, hschema]
  exact h.conforms_of_row hr

/-- What a command answers was made from the result of the operation that it stands for. -/
theorem exists_of_run_map {f : α → Answer} {a : Attempt α} {x : Answer} {s s' : Session}
    (h : (f <$> a).run.run s = (.ok x, s')) : ∃ y, a.run.run s = (.ok y, s') ∧ f y = x := by
  rw [run_map] at h
  generalize a.run.run s = y at h ⊢
  obtain ⟨y | y, s''⟩ := y
  · cases h
  · cases h
    exact ⟨y, rfl, rfl⟩

/-- Every row that a command answers fits its schema. -/
theorem Command.fits_of_run (hw : w.Sound) {c : Command} (hc : w.Offers c) {rs : List SharedRow}
    {s : Session} (h : c.run.run.run w.session = (.ok (.rows rs), s)) :
    ∀ r ∈ rs, r.row.Fits := by
  cases c with
  | newRow x values =>
    obtain ⟨r, hr, hrs⟩ := exists_of_run_map h
    cases hrs
    obtain ⟨row, hrow, hr⟩ := bind_eq_ok_iff.1 (mapError_eq_ok_iff.1 (congrArg Prod.fst hr))
    obtain rfl := Except.ok.inj hr
    exact List.forall_mem_singleton.2 (Row.ofValues_eq_ok_iff.1 hrow).2
  | row i index =>
    obtain ⟨r, hr, hrs⟩ := exists_of_run_map h
    cases hrs
    obtain ⟨row, hrow, hr⟩ := bind_eq_ok_iff.1 (mapError_eq_ok_iff.1 (congrArg Prod.fst hr))
    obtain rfl := Except.ok.inj hr
    obtain ⟨n, cs, hh⟩ := (hw.reachable i hc).sound
    exact List.forall_mem_singleton.2 (hh.fits_of_row hrow)
  | toRows i =>
    obtain ⟨rs', hrs', hrs⟩ := exists_of_run_map h
    cases hrs
    obtain ⟨rows, hrows, hrs'⟩ := bind_eq_ok_iff.1 (mapError_eq_ok_iff.1 (congrArg Prod.fst hrs'))
    obtain rfl := Except.ok.inj hrs'
    obtain ⟨n, cs, hh⟩ := (hw.reachable i hc).sound
    intro r hr
    obtain ⟨row, hrow, rfl⟩ := List.mem_map.1 hr
    -- all rows at once are the rows at the positions
    obtain ⟨k, hk⟩ := List.mem_iff_getElem?.1 hrow
    exact hh.fits_of_row ((hh.getElem?_toRows hrows).1 hk).2
  | _ =>
    -- every other command answers a schema, a table or nothing
    obtain ⟨_, -, hrs⟩ := exists_of_run_map h
    cases hrs

/-- Every row of a run fits its schema, however it came about. -/
theorem Run.fits (h : Run w) : ∀ r ∈ w.rows, r.row.Fits := by
  induction h with
  | start s => simp
  | @command w c hrun hc ih =>
    obtain ⟨⟨x, s⟩, hx⟩ : ∃ y, c.run.run.run w.session = y := ⟨_, rfl⟩
    rw [World.after, hx]
    -- the rows before stay, and only an answer of rows adds to them
    cases x with
    | error e => exact ih
    | ok x =>
      cases x with
      | rows rs =>
        intro r hr
        obtain hr | hr := List.mem_append.1 hr
        · exact Command.fits_of_run hrun.sound hc hx r hr
        · exact ih r hr
      | _ => exact ih
  | outside files events _ ih => exact ih

/-! ### From rows to a table -/

namespace Table

/-- The table has the schema and exactly the rows, in order; each of them is read back as it is, by
itself and among all rows. -/
structure Gathered (t : Table) (schema : Schema) (rows : List Row) : Prop where
  schema_eq : t.schema = schema
  rowCount_eq : t.rowCount = rows.length
  row_eq : ∀ (k : Nat) (r : Row), rows[k]? = some r → t.row k = .ok r
  toRows_eq : t.toRows = .ok rows

/-- At the position of a column all rows have a value, and it is of the type of the column. -/
theorem exists_valuesAt (h : ∀ r ∈ rows, r.schema = schema ∧ r.Fits) {name : String}
    {type : ColumnType} (hi : schema.columns[i]? = some (name, type)) :
    ∃ vs, valuesAt rows i = .ok vs ∧ ∀ v ∈ vs, type.accepts v = true := by
  -- each row has a value of the type at the position
  have hcell : ∀ r ∈ rows, ∃ v, elementAt r.values i = .ok v ∧ type.accepts v = true := by
    intro r hr
    obtain ⟨rfl, hfits⟩ := h r hr
    obtain ⟨v, hv, hfit⟩ := exists_getElem?_of_forall₂ hfits.flip hi
    exact ⟨v, elementAt_eq_ok_iff.2 hv, accepts_iff.2 hfit⟩
  obtain ⟨vs, hvs⟩ := exists_mapM_eq_ok fun r hr => (hcell r hr).imp fun v hv => hv.1
  refine ⟨vs, hvs, fun v hv => ?_⟩
  obtain ⟨r, hr, hrv⟩ := forall₂_exists_left (mapM_eq_ok_iff.1 hvs) hv
  obtain ⟨u, hu, haccepts⟩ := hcell r hr
  obtain rfl : u = v := Except.ok.inj (hu.symm.trans hrv)
  exact haccepts

/-- Rows that fit one schema have columns: one for each entry of the schema, of the values that the
rows hold at its position. -/
theorem exists_columns_of_fits (h : ∀ r ∈ rows, r.schema = schema ∧ r.Fits) :
    ∃ cs : List Column, schema.columns = cs.map Column.entry ∧ (∀ c ∈ cs, c.Canonical) ∧
      (∀ c ∈ cs, c.length = rows.length) ∧
      ∀ (i : Nat) (c : Column) vs, cs[i]? = some c → c.values = .ok vs →
        valuesAt rows i = .ok vs := by
  have hcolumn : ∀ p ∈ schema.columns.zipIdx, ∃ c : Column, c.entry = p.1 ∧ c.Canonical ∧
      ∃ vs, c.values = .ok vs ∧ valuesAt rows p.2 = .ok vs := by
    rintro ⟨⟨name, type⟩, i⟩ hp
    obtain ⟨vs, hvs, haccepts⟩ := exists_valuesAt h (List.mem_zipIdx_iff_getElem?.1 hp)
    obtain ⟨s, hs, hname, hsvs⟩ := Series.exists_ofValues name haccepts
    exact ⟨⟨name, type, s⟩, rfl, ⟨hname, (Series.values_spec hsvs).1⟩, vs, hsvs, hvs⟩
  obtain ⟨cs, hcs⟩ := exists_forall₂ hcolumn
  -- what is known of each column position by position, said of the list
  refine ⟨cs, ?_, fun c hc => ?_, fun c hc => ?_, fun i c vs hc hvs => ?_⟩
  · rw [← List.zipIdx_map_fst 0 schema.columns, ← List.forall₂_eq_eq_eq,
      List.forall₂_map_left_iff, List.forall₂_map_right_iff]
    exact hcs.imp fun p c hpc => hpc.1.symm
  · obtain ⟨p, -, -, hcan, -⟩ := forall₂_exists_left hcs hc
    exact hcan
  · obtain ⟨p, -, -, -, vs, hvs, hat⟩ := forall₂_exists_left hcs hc
    exact (Series.values_spec hvs).2.1.symm.trans (length_of_valuesAt hat)
  · obtain ⟨⟨entry, j⟩, hp, -, -, ws, hws, hat⟩ := exists_getElem?_of_forall₂ hcs hc
    rw [List.getElem?_zipIdx, Option.map_eq_some_iff] at hp
    obtain ⟨_, -, hp⟩ := hp
    obtain ⟨-, rfl⟩ := Prod.mk.inj hp
    obtain rfl : ws = vs := Except.ok.inj (hws.symm.trans hvs)
    rwa [Nat.zero_add] at hat

/-- Rows that fit the schema of a table and have the values of its columns are the rows of it. -/
theorem Holds.toRows_eq_of_valuesAt (h : t.Holds rows.length cs)
    (hrows : ∀ r ∈ rows, r.schema = t.schema ∧ r.Fits)
    (hvalues : ∀ (i : Nat) (c : Column) vs, cs[i]? = some c → c.values = .ok vs →
      valuesAt rows i = .ok vs) : t.toRows = .ok rows := by
  obtain ⟨rs, hrs⟩ := h.exists_toRows
  obtain ⟨hlength, hspec⟩ := h.toRows_spec hrs
  rw [hrs, Except.ok.injEq]
  refine List.ext_getElem hlength fun k hk hk' => ?_
  obtain ⟨hschema, hcells⟩ := hspec k rs[k] (List.getElem?_eq_getElem hk)
  obtain ⟨hschema', hfits⟩ := hrows rows[k] (List.getElem_mem hk')
  have hfits' : rs[k].Fits :=
    h.fits_of_row ((h.getElem?_toRows hrs).1 (List.getElem?_eq_getElem hk)).2
  -- both rows have a value for each column and no other, so it is enough to look at the columns
  have hvalues' : rs[k].values = rows[k].values := by
    refine List.ext_getElem? fun i => ?_
    cases hc : cs[i]? with
    | none =>
      have hi : t.schema.columns.length ≤ i := by
        rw [h.columns_eq, List.length_map]
        exact List.getElem?_eq_none_iff.1 hc
      rw [List.getElem?_eq_none (by rwa [← hfits'.length_eq, hschema]),
        List.getElem?_eq_none (by rwa [← hfits.length_eq, hschema'])]
    | some c =>
      obtain ⟨vs, hvs, -⟩ := (h.canonical c (List.mem_of_getElem? hc)).exists_values
      have hat := mapM_eq_ok_iff.1 (hvalues i c vs hc hvs)
      obtain ⟨v, hv, hrow⟩ := exists_getElem?_of_forall₂ hat.flip (List.getElem?_eq_getElem hk')
      rw [hcells i c vs hc hvs, hv, elementAt_eq_ok_iff.1 hrow]
  calc rs[k] = ⟨rs[k].schema, rs[k].values⟩ := rfl
    _ = ⟨rows[k].schema, rows[k].values⟩ := by rw [hschema, hschema', hvalues']
    _ = rows[k] := rfl

/-- Rows that fit one schema make a table of exactly these rows. -/
theorem gathered_of_fits (h : ∀ r ∈ rows, r.schema = schema ∧ r.Fits) :
    ∃ t, ofAgreeing schema rows = .ok t ∧ t.Gathered schema rows := by
  obtain ⟨cs, hentries, hcan, hlength, hvalues⟩ := exists_columns_of_fits h
  obtain ⟨t, ht, hh⟩ := exists_ofAgreeing hentries hcan hlength hvalues
  have hschema : t.schema = schema := (holds_of_ofAgreeing ht).1
  have htoRows : t.toRows = .ok rows := hh.toRows_eq_of_valuesAt (hschema ▸ h) hvalues
  exact ⟨t, ht, hschema, hh.rowCount_eq, fun k r hr => ((hh.getElem?_toRows htoRows).1 hr).2,
    htoRows⟩

/-- The first row says what the others are held against. -/
theorem ofRows_eq_mismatch_of_exists (h : ∃ r ∈ rows, r.schema ≠ first.schema) :
    ofRows (first :: rows) = .error .schemaMismatch := by
  have hany : (rows.any fun r => r.schema ≠ first.schema) = true := by simpa using h
  rw [ofRows, hany]
  rfl

end Table

namespace Run

/-- Whatever row fits its schema, any run can go on to have it: it is made for a schema that is like
that of no other row. What is said of the rows of runs is therefore said of all rows that fit. -/
theorem exists_sharedRow (h : Run w) (hr : r.Fits) : ∃ w', Run w' ∧ (∀ q ∈ w.rows, q ∈ w'.rows) ∧
    ⟨w.session.issued, r⟩ ∈ w'.rows := by
  have hshared : Run (w.after (.share r.schema)) := .command h trivial
  have hoffers : (w.after (.share r.schema)).Offers
      (.newRow ⟨w.session.issued, r.schema⟩ r.values) := List.mem_cons_self
  have hvalues : SharedRow.ofValues ⟨w.session.issued, r.schema⟩ r.values =
      .ok ⟨w.session.issued, r⟩ :=
    bind_eq_ok_iff.2 ⟨r, Row.ofValues_eq_ok_iff.2 ⟨rfl, hr⟩, rfl⟩
  have hrows : ((w.after (.share r.schema)).after
      (.newRow ⟨w.session.issued, r.schema⟩ r.values)).rows =
        ⟨w.session.issued, r⟩ :: w.rows := by
    rw [World.after, Command.run, hvalues]
    rfl
  refine ⟨_, .command hshared hoffers, fun q hq => ?_, ?_⟩
  · rw [hrows]
    exact List.mem_cons_of_mem _ hq
  · rw [hrows]
    exact List.mem_cons_self

/-- Of the rows of a run, whether they were made for a schema or read from a table, a table can be
made exactly if the names and types of their schemas agree, in whichever way they share them; and it
has the schema of the first row and exactly these rows. Values can be made a row exactly if they fit
the schema; they are refused for their number, and otherwise for the first one that is there and of
another type than its column. -/
theorem rows_gathered (h : Run w) {first : SharedRow} {rest : List SharedRow}
    (hrows : ∀ r ∈ first :: rest, r ∈ w.rows) :
    (SharedRow.toTable (first :: rest) = .error .schemaMismatch ↔
      ∃ r ∈ rest, r.row.schema.columns ≠ first.row.schema.columns) ∧
    ((∀ r ∈ rest, r.row.schema.columns = first.row.schema.columns) →
      ∃ t, SharedRow.toTable (first :: rest) = .ok t ∧
        t.Gathered first.row.schema ((first :: rest).map SharedRow.row)) ∧
    ∀ (schema : Schema) (values : List Value),
      (∀ e, Row.ofValues schema values = .error e ↔
        values.length ≠ schema.length ∧ e = .schemaMismatch ∨
        values.length = schema.length ∧ ∃ name type v,
          FirstWith Row.Misfit (schema.columns.zip values) ((name, type), v) ∧
            e = .typeMismatch name type v.typeName) ∧
      ∀ r, Row.ofValues schema values = .ok r ↔ r = ⟨schema, values⟩ ∧ r.Fits := by
  -- what has one number has one schema, so the schemas may as well all be compared
  rw [h.sound.toTable_eq hrows, List.map_cons]
  have hagree : (∀ r ∈ rest, r.row.schema.columns = first.row.schema.columns) →
      ∃ t, Table.ofRows (first.row :: rest.map SharedRow.row) = .ok t ∧
        t.Gathered first.row.schema (first.row :: rest.map SharedRow.row) := by
    intro hcolumns
    have hall : ∀ r ∈ first.row :: rest.map SharedRow.row,
        r.schema = first.row.schema ∧ r.Fits := by
      refine List.forall_mem_cons.2 ⟨⟨rfl, h.fits first (hrows first List.mem_cons_self)⟩, ?_⟩
      rw [List.forall_mem_map]
      intro r hr
      exact ⟨Schema.ext_columns (hcolumns r hr), h.fits r (hrows r (List.mem_cons_of_mem _ hr))⟩
    rw [Table.ofRows_of_forall_schema (fun r hr => (hall r hr).1) (List.cons_ne_nil _ _)]
    exact Table.gathered_of_fits hall
  refine ⟨⟨fun herror => ?_, fun ⟨r, hr, hne⟩ => ?_⟩, hagree, fun schema values =>
    ⟨fun e => Row.ofValues_eq_error_iff, fun r => Row.ofValues_eq_ok_iff⟩⟩
  · -- if all schemas agreed, the rows would be gathered
    by_contra hnone
    obtain ⟨t, ht, -⟩ := hagree fun r hr => by
      by_contra hne
      exact hnone ⟨r, hr, hne⟩
    cases herror.symm.trans ht
  · exact Table.ofRows_eq_mismatch_of_exists ⟨r.row, List.mem_map_of_mem hr, fun heq =>
      hne (congrArg Schema.columns heq)⟩

/-- A row of a table and one that was made for a schema of its own make a table, as the names and
types agree; a row without columns does not go with them. -/
theorem rows_gathered_scores : ∃ w first other odd t, Run w ∧ first ∈ w.rows ∧ other ∈ w.rows ∧
    odd ∈ w.rows ∧ first.serial ≠ other.serial ∧
    SharedRow.toTable [first, other] = .ok t ∧
    t.Gathered first.row.schema [first.row, other.row] ∧
    SharedRow.toTable [first, other, odd] = .error .schemaMismatch ∧
    Row.ofValues first.row.schema [.null, .string "x"] =
      .error (.typeMismatch "score" .integer "string") := by
  obtain ⟨u, first, hu, hfirst, hcolumns, hserial⟩ : ∃ (u : World) (first : SharedRow), Run u ∧
      first ∈ u.rows ∧ first.row.schema.columns = [("name", .string), ("score", .integer)] ∧
      first.serial < u.session.issued :=
    ⟨_, _, .command (c := .toRows _) (.command (c := .ofFrame .scores) (.start .initial) trivial)
      List.mem_cons_self, List.mem_cons_self, rfl, by decide⟩
  have hother : Row.Fits ⟨first.row.schema, [.string "cid", .integer 5]⟩ := by
    rw [Row.Fits, hcolumns]
    exact .cons (.inr rfl) (.cons (.inr rfl) .nil)
  have hodd : Row.Fits ⟨.empty, []⟩ := .nil
  obtain ⟨v, hv, huv, hother⟩ := exists_sharedRow hu hother
  obtain ⟨w, hw, hvw, hodd⟩ := exists_sharedRow hv hodd
  have hfirst := hvw _ (huv _ hfirst)
  have hother := hvw _ hother
  have hpair := List.forall_mem_cons.2 ⟨hfirst, List.forall_mem_singleton.2 hother⟩
  have hthree := List.forall_mem_cons.2 ⟨hfirst, List.forall_mem_cons.2
    ⟨hother, List.forall_mem_singleton.2 hodd⟩⟩
  obtain ⟨-, hmade, hvalues⟩ := rows_gathered hw hpair
  obtain ⟨t, ht, hgathered⟩ := hmade (List.forall_mem_singleton.2 rfl)
  obtain ⟨hrefused, -⟩ := rows_gathered hw hthree
  refine ⟨w, first, _, _, t, hw, hfirst, hother, hodd, hserial.ne, ht, hgathered,
    hrefused.2 ⟨_, List.mem_cons_of_mem _ List.mem_cons_self, ?_⟩, ?_⟩
  · rw [hcolumns]
    exact (List.cons_ne_nil _ _).symm
  · refine ((hvalues first.row.schema [.null, .string "x"]).1 _).2 (.inr ⟨?_, ?_⟩)
    · rw [Schema.length, hcolumns]
      rfl
    · -- the empty value fits every column, so the text is the first one that does not
      refine ⟨"score", .integer, .string "x", ⟨⟨rfl, by decide⟩, ?_⟩, rfl⟩
      rw [hcolumns]
      refine ⟨[(("name", .string), .null)], [], rfl, List.forall_mem_singleton.2 fun hmisfit => ?_⟩
      cases hmisfit.1

end Run

end Tabula
