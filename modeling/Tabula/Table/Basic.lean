import Tabula.Column
import Tabula.Frame
import Tabula.Row

/-!
# Tables

A table is a frame with the schema that it is read by. Every operation returns a new table.

* `Table.ofFrame`, `Table.ofColumns`, `Table.ofRows` — the ways to build a table.
* `Table.row`, `Table.rows`, `Table.toRows`, `Table.column`, `Table.columns` — the ways to read it.
* `Table.rename`, `Table.drop`, `Table.keep`, `Table.replace` — the ways to change its columns.
* `Table.equal` — equality of schemas, row counts and values.
-/

namespace Tabula

/-- A table of typed, named columns. -/
structure Table where
  schema : Schema
  frame : Frame

namespace Table

/-- The table without columns and rows. -/
def empty : Table := ⟨.empty, .ofHeight 0⟩

instance : Inhabited Table := ⟨empty⟩

/-! ### Building -/

/-- The table of a frame, every series in canonical storage. A frame without series keeps its
height. -/
def ofFrame (f : Frame) : Except Error Table := do
  let normalized ← f.series.mapM Series.normalize
  let schema ← Schema.ofColumns (normalized.map fun (s, t) => (s.name, t))
  return ⟨schema, ← Frame.ofSeriesOver f.height (normalized.map Prod.fst)⟩

/-- The table of columns, which have to agree in length and differ in name; a wrong length is
reported before a repeated name. -/
def ofColumns : List Column → Except Error Table
  | [] => .ok empty
  | first :: rest =>
    match rest.find? fun c => c.length ≠ first.length with
    | some c => .error (.lengthMismatch c.name first.length c.length)
    | none => do
      let columns := first :: rest
      let schema ← Schema.ofColumns (columns.map fun c => (c.name, c.type))
      return ⟨schema, ← Frame.ofSeries (columns.map Column.series)⟩

/-- The values that rows hold at a position. -/
def valuesAt (rows : List Row) (i : Nat) : Except Error (List Value) :=
  rows.mapM fun r => elementAt r.values i

/-- The table of rows that agree in the schema. Without columns it keeps the number of rows. -/
def ofAgreeing (schema : Schema) (rows : List Row) : Except Error Table := do
  let series ← schema.columns.zipIdx.mapM fun ((name, type), i) => do
    Series.ofValues name type (← valuesAt rows i)
  return ⟨schema, ← Frame.ofSeriesOver rows.length series⟩

/-- The table of rows, which have to agree in their schemas. -/
def ofRows : List Row → Except Error Table
  | [] => .ok empty
  | first :: rest => do
    if rest.any fun r => r.schema ≠ first.schema then throw .schemaMismatch
    ofAgreeing first.schema (first :: rest)

/-! ### Reading -/

variable (t : Table)

def rowCount : Nat := t.frame.height

def columnCount : Nat := t.schema.length

def columnNames : List String := t.schema.names

/-- The row with the index. -/
def row (index : Int) : Except Error Row := do
  let i ← checkedIndex index t.rowCount
  return ⟨t.schema, ← t.frame.series.mapM fun s => s.value i⟩

/-- The rows one after the other, each read by its index. -/
def rows : List (Except Error Row) := (List.range t.rowCount).map fun i => t.row (Int.ofNat i)

/-- The column with the name. -/
def column (name : String) : Except Error Column := do
  let type ← t.schema.typeOf name
  return ⟨name, type, ← t.frame.seriesOf name⟩

/-- All columns in order. -/
def columns : Except Error (List Column) := t.columnNames.mapM t.column

/-- The rows, read column by column. -/
def toRows : Except Error (List Row) := do
  let columns ← (← t.columns).mapM Column.values
  (List.range t.rowCount).mapM fun i => do
    return ⟨t.schema, ← columns.mapM fun vs => elementAt vs i⟩

/-- The type of the column with the name. -/
def columnType (name : String) : Except Error ColumnType := t.schema.typeOf name

/-! ### Changing columns -/

/-- The table with one column under another name. -/
def rename (old new : String) : Except Error Table := do
  if !t.schema.has old then throw (.missingColumns [old])
  if old = new then return t
  if t.schema.has new then throw (.duplicateColumn new)
  let frame ← t.frame.rename old new
  let schema ← Schema.ofColumns (t.schema.columns.map fun (n, type) =>
    (if n = old then new else n, type))
  return ⟨schema, frame⟩

/-- The table of the columns with the given names, in their order. The number of rows stays, also
without any column. -/
def select (names : List String) : Except Error Table := do
  let columns ← names.mapM fun n => (t.schema.typeOf n).map fun type => (n, type)
  let schema ← Schema.ofColumns columns
  let frame ← if names.isEmpty then pure (.ofHeight t.rowCount) else t.frame.select names
  return ⟨schema, frame⟩

/-- The table without the columns with the given names, all of which have to exist. -/
def drop (names : List String) : Except Error Table := do
  t.schema.require names
  t.select (t.columnNames.filter fun n => n ∉ names)

/-- The table of only the columns with the given names, all of which have to exist; their order does
not change. -/
def keep (names : List String) : Except Error Table := do
  t.schema.require names
  t.select (t.columnNames.filter fun n => n ∈ names)

/-- The table with a column in the place of the one of its name, which has to exist and to have the
same length. -/
def replace (c : Column) : Except Error Table := do
  let i ← t.schema.index c.name
  if c.length ≠ t.rowCount then throw (.lengthMismatch c.name t.rowCount c.length)
  let schema ← Schema.ofColumns (t.schema.columns.zipIdx.map fun ((n, type), j) =>
    (n, if j = i then c.type else type))
  return ⟨schema, ← t.frame.put c.series⟩

/-! ### Equality -/

/-- The values of the column with the name. -/
def columnValues (name : String) : Except Error (List Value) := do
  (← t.column name).values

/-- Whether two tables have the same schema, the same number of rows and equal values. -/
def equal (t u : Table) : Bool :=
  t.schema = u.schema && t.rowCount = u.rowCount &&
    t.columnNames.all fun n =>
      match t.columnValues n, u.columnValues n with
      | .ok vs, .ok ws => vs == ws
      | _, _ => false

instance : BEq Table := ⟨equal⟩

end Table

end Tabula
