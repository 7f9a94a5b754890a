import Tabula.Frame
import Tabula.Number.Integer64
import Tabula.Number.Layout
import Tabula.Options
import Tabula.Records.Shape
import Tabula.Text.Split
import Tabula.Text.Utf8

/-!
# JSON documents of records

A table is written as JSON objects, one for every row: either as the items of one array or one on
every line.

* `Records.render` — the document of names and rows of values.
* `Records.read?` — the frame that a document holds. The shapes of its columns are unified over the
  rows that are scanned.
-/

namespace Tabula.Records

/-! ### Writing -/

/-- The JSON text of a cell; a number that is not finite is written as null. -/
def valueText : Value → List Char
  | .null => "null".toList
  | .boolean b => (if b then "true" else "false").toList
  | .integer i => (toString i.toInt).toList
  | .float x => if x.isFinite then (Layout.compact.render x).toList else "null".toList
  | .string s => Json.quote s

/-- The JSON object of a row. -/
def record (names : List String) (values : List Value) : List Char :=
  '{' :: [','].intercalate ((names.zip values).map fun (name, v) =>
    Json.quote name ++ ':' :: valueText v) ++ ['}']

/-- The document of column names and rows. Without columns there are no objects. -/
def render (layout : RecordLayout) (names : List String) (rows : List (List Value)) : List Char :=
  let records := if names.isEmpty then [] else rows.map (record names)
  match layout with
  | .records => '[' :: [','].intercalate records ++ [']']
  | .lines => records.flatMap (· ++ ['\n'])

/-! ### Reading cells -/

/-- The integer of a floating-point number without its fraction. -/
def truncate? (x : Binary64) : Option Int64 :=
  Integer64.ofInt? (x.units.tdiv Grid.double.unitsPerOne)

/-- The cell of a value in a column of integers; an integer beyond its range leaves it empty. -/
def intCell? : Json → Option (Option Int64)
  | .null => some none
  | .bool b => some (some (if b then 1 else 0))
  | .number n => n.numeral?.map fun
    | .int i => Integer64.ofInt? i
    | .float x => truncate? x
  | _ => none

/-- The cell of a value in a column of floating-point numbers. -/
def floatCell? : Json → Option (Option Binary64)
  | .null => some none
  | .bool b => some (some (.ofInt (if b then 1 else 0)))
  | .number n => n.numeral?.map fun
    | .int i => some (.ofInt i)
    | .float x => some x
  | _ => none

/-- The cell of a value in a column of truth values. -/
def boolCell? : Json → Option (Option Bool)
  | .null => some none
  | .bool b => some (some b)
  | _ => none

/-- The cell of a value in a column of texts; a number or a truth value becomes its text. -/
def textCell? : Json → Option (Option String)
  | .null => some none
  | .bool b => some (some (if b then "true" else "false"))
  | .number n => n.numeral?.map fun
    | .int i => some (toString i)
    | .float x => some (Layout.plain.render x)
  | .string s => s.map some
  | _ => none

/-- Whether a value is null. -/
def isNull : Json → Bool
  | .null => true
  | _ => false

/-- The cells of the values of one column. A column without any shape but null holds nothing; on
lines it must not be given anything. -/
def cells? (layout : RecordLayout) (shape : Shape) (items : List Json) : Option Cells :=
  match shape with
  | .null =>
    if layout = .lines ∧ ¬items.all isNull then none else some (.nulls items.length)
  | .bool => (items.mapM boolCell?).map .booleans
  | .int => (items.mapM intCell?).map (.ints .i64)
  | .float => (items.mapM floatCell?).map .floats64
  | .text => (items.mapM textCell?).map .strings
  | .list _ | .record _ => some (.foreign shape.label items.length)

/-! ### Reading documents -/

/-- The members of an object by their keys. -/
def members? : Json → Option (List (String × Json))
  | .object members => members.mapM fun (key, item) => key.map fun k => (k, item)
  | _ => none

/-- The fields of a record with their shapes. -/
def fields? (fuel : Nat) (item : Json) : Option (List (String × Shape)) :=
  match Shape.ofJson? fuel item with
  | some (.record fields) => some fields
  | _ => none

/-- The columns of rows with the given fields: the fields of the first row, each next row merged. -/
def columns? (fuel : Nat) : List (List (String × Shape)) → Option (List (String × Shape))
  | [] => none
  | first :: rest => rest.foldlM (mergeFields (Shape.unify? fuel)) first

/-- Whether all keys of a row are columns. -/
def hasOnly (columns : List (String × Shape)) (row : List (String × Json)) : Bool :=
  row.all fun (key, _) => (columns.lookup key).isSome

/-- The frame of the rows, whose columns are taken from the rows that are scanned. Only on lines may
a row have further keys. -/
def ofItems? (o : Options) (fuel : Nat) (items : List Json) : Option Frame := do
  let shapes ← items.mapM (fields? fuel)
  let columns ← columns? fuel (match o.scanLength with
    | some k => shapes.take k.toNat
    | none => shapes)
  let rows ← items.mapM members?
  guard (o.layout = .lines ∨ rows.all (hasOnly columns))
  let series ← columns.mapM fun (name, shape) =>
    (cells? o.layout shape (rows.map fun row => (row.lookup name).getD .null)).map fun cells =>
      (⟨name, cells⟩ : Series)
  (Frame.ofSeries series).toOption

/-- The JSON values in a document that stand for its rows. Blank lines hold none. -/
def items? (layout : RecordLayout) (cs : List Char) : Option (List Json) :=
  match layout with
  | .records => (Json.parseChars? cs).map fun
    | .array items => items
    | item => [item]
  | .lines =>
    let lines := (Text.splitOn '\n' cs).filter fun line => !line.all Json.isBlank
    lines.mapM Json.parseChars?

/-- The frame that the text of a document holds. Only an array may be without rows. -/
def readText? (o : Options) (cs : List Char) : Option Frame :=
  (items? o.layout cs).bind fun items =>
    if items.isEmpty && o.layout == .records then some (.ofHeight 0)
    else ofItems? o cs.length items

/-- The frame that the bytes of a document hold. -/
def read? (o : Options) (bytes : ByteArray) : Option Frame :=
  (Utf8.strict? bytes).bind (readText? o)

end Tabula.Records
