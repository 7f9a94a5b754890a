import Tabula.Series.Values

/-!
# Columns

A column is a series together with the name and the column type that it is read by. A column that
was built from a series or from values has the name of its series and holds it in the canonical
storage type of its column type.

* `Column.ofSeries`, `Column.ofValues` — the two ways to build a column.
* `Column.values`, `Column.value` — its cells, all of them or one by index.
* `Column.equal` — equality of names, types and values.
-/

namespace Tabula

/-- A named list of values of one type. -/
structure Column where
  name : String
  type : ColumnType
  series : Series

namespace Column

/-- The column of a series under a new name, in canonical storage. -/
def ofSeries (name : String) (series : Series) : Except Error Column := do
  let (series, type) ← (series.rename name).normalize
  return ⟨name, type, series⟩

/-- The column of values, all of which the type has to accept. -/
def ofValues (name : String) (type : ColumnType) (values : List Value) : Except Error Column := do
  return ⟨name, type, ← Series.ofValues name type values⟩

variable (c : Column)

def length : Nat := c.series.length

def isEmpty : Bool := c.length == 0

/-- The number of empty cells. -/
def nullCount : Nat := c.series.nullCount

/-- The values of all cells. -/
def values : Except Error (List Value) := c.series.values c.type

/-- The value of the cell with the index. -/
def value (index : Int) : Except Error Value := do
  let i ← checkedIndex index c.length
  c.series.value i

/-- Whether two columns have the same name and type and equal values. -/
def equal (c d : Column) : Bool :=
  c.name == d.name && c.type == d.type &&
    match c.values, d.values with
    | .ok vs, .ok ws => vs == ws
    | _, _ => false

instance : BEq Column := ⟨equal⟩

end Column

end Tabula
