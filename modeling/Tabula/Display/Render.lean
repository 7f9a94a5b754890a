import Tabula.Display.Cell
import Tabula.Display.Fit
import Tabula.Table.Basic

/-!
# The display of tables

A table is shown as its shape and a box with a line for every row. Of many rows and columns only the
first and the last ones are shown.

* `Display.around` — the first and last items of a list, with something between them.
* `Display.box` — the box around columns of cells.
* `Table.render` — the text of a table.
-/

namespace Tabula

namespace Display

/-- The width that the whole display does not exceed. -/
def screenWidth : Nat := 100

/-- Digits from the last to the first with a mark before every group of three; `count` of the
present group have been passed. -/
def groupDigits : Nat → List Char → List Char
  | _, [] => []
  | 3, c :: cs => '_' :: c :: groupDigits 1 cs
  | count, c :: cs => c :: groupDigits (count + 1) cs

/-- A number with its digits in groups of three. -/
def grouped (n : Nat) : List Char := (groupDigits 0 (Nat.toDigits 10 n).reverse).reverse

/-- The list, or if it is longer than the limit the first half and the last half of so many items
with something between them. -/
def around {α : Type} (limit : Nat) (between : α) (xs : List α) : List α :=
  if xs.length ≤ limit then xs
  else xs.take (limit / 2) ++ between :: xs.drop (xs.length - limit / 2)

/-- A column of a display: its heading and its cells, each a list of lines. -/
structure Column where
  heading : List (List Char)
  cells : List (List Char)
  /-- The number of bytes of the longest entry. -/
  bytes : Nat

/-- What the column asks for. A short column has a fixed width. -/
def Column.demand (c : Column) : Demand :=
  let most := min (longest + 1) c.bytes
  ⟨c.heading ++ c.cells.flatMap (Text.splitOn '\n'), min 3 most, most⟩

/-- A line filled up with blanks to a width. -/
def fill (width : Nat) (cs : List Char) : List Char :=
  cs ++ List.replicate (width - Width.ofChars cs) ' '

/-- A horizontal rule across columns of the given widths. -/
def rule (left line cross right : Char) (widths : List Nat) : List Char :=
  left :: [cross].intercalate (widths.map fun w => List.replicate (w + 2) line) ++ [right]

/-- The lines of one row of cells, each of which is a list of lines. -/
def rowLines (widths : List Nat) (cells : List (List (List Char))) : List (List Char) :=
  let wrapped := (widths.zip cells).map fun (w, lines) => lines.flatMap (wrap w)
  let height := (wrapped.map List.length).foldl max 0
  (List.range height).map fun i =>
    '│' :: ['┆'].intercalate ((widths.zip wrapped).map fun (w, lines) =>
      ' ' :: (fill w (lines[i]?.getD []) ++ [' '])) ++ ['│']

/-- The box around columns with the given number of rows. -/
def box (rows : Nat) (columns : List Column) : List (List Char) :=
  let n := columns.length
  let widths := fit (screenWidth - (n + 1) - 2 * n) (columns.map Column.demand)
  rule '┌' '─' '┬' '┐' widths ::
    (rowLines widths (columns.map Column.heading) ++
      rule '╞' '═' '╪' '╡' widths ::
        ((List.range rows).flatMap fun i =>
          rowLines widths (columns.map fun c => Text.splitOn '\n' (c.cells[i]?.getD []))) ++
      [rule '└' '─' '┴' '┘' widths])

/-- The number of bytes of a text. -/
def byteCount (cs : List Char) : Nat := cs.foldr (fun c n => c.utf8Size + n) 0

/-- The column of a grid with a name, the name of a storage type and cells. -/
def Column.ofCells (name : String) (dtype : String) (cells : List (List Char)) : Column :=
  let name := cut name.toList
  ⟨Text.splitOn '\n' name ++ ["---".toList, dtype.toList], cells,
    (cells.map byteCount).foldl max (max (Width.ofChars name) (byteCount dtype.toList))⟩

/-- The column that stands for columns that are left out. -/
def Column.leftOut (rows : Nat) : Column :=
  ⟨[[ellipsis], [], []], List.replicate rows [ellipsis], 1⟩

end Display

/-- The text of the table. -/
def Table.render (t : Table) : Except Error String := do
  let columns ← (← t.columns).mapM fun c => do
    let cells := Display.around 10 [Display.ellipsis] ((← c.values).map Display.cellText)
    return Display.Column.ofCells c.name c.type.dtype.label cells
  let rows := if t.rowCount ≤ 10 then t.rowCount else 11
  let lines := Display.box rows (Display.around 8 (Display.Column.leftOut rows) columns)
  let shape := "shape: (".toList ++ Display.grouped t.rowCount ++ ", ".toList ++
    Display.grouped t.columnCount ++ [')']
  return String.ofList (['\n'].intercalate (shape :: lines))

end Tabula
