import Tabula.Schema

/-!
# Rows

A row is a list of values under a schema. Rows are compared and hashed by their values alone.

* `Row.ofValues` — a row, if the values fit the schema.
* `Row.value`, `Row.pairs` — its values by name.
* `Row.equal`, `Row.hashFeed` — equality and what a row feeds to a hasher.
-/

namespace Tabula

/-- A record of a table. -/
structure Row where
  schema : Schema
  values : List Value
  deriving DecidableEq

namespace Row

/-- The first column whose type does not accept its value, with that value. -/
def misfit? (columns : List (String × ColumnType)) (values : List Value) :
    Option ((String × ColumnType) × Value) :=
  (columns.zip values).find? fun p => !p.1.2.accepts p.2

/-- The row of the values, which have to be as many as the columns and of their types. -/
def ofValues (schema : Schema) (values : List Value) : Except Error Row :=
  if values.length ≠ schema.length then .error .schemaMismatch
  else match misfit? schema.columns values with
    | some ((name, type), v) => .error (.typeMismatch name type v.typeName)
    | none => .ok ⟨schema, values⟩

variable (r : Row)

def length : Nat := r.values.length

def isEmpty : Bool := r.values.isEmpty

/-- The value in the column with the name. -/
def value (name : String) : Except Error Value := do
  let i ← r.schema.index name
  elementAt r.values i

/-- The values with the names of their columns. -/
def pairs : List (String × Value) := r.schema.names.zip r.values

/-- Whether two rows have equal values, whatever their schemas. -/
def equal (r s : Row) : Bool := r.values == s.values

instance : BEq Row := ⟨equal⟩

/-- What the row feeds to a hasher. -/
def hashFeed : List HashInput := Value.hashFeedList r.values

end Row

end Tabula
