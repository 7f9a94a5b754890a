import Tabula.Csv.FieldType
import Tabula.Frame
import Tabula.Json.Number
import Tabula.Number.Integer64
import Tabula.Number.Layout
import Tabula.Options
import Tabula.Text.Utf8

/-!
# CSV documents

A document is a line of column names followed by a line for every row.

* `Csv.render` — the document of names and rows of values.
* `Csv.read?` — the frame that a document holds; none if a field does not fit the type of its
  column, if a line has too many fields, or if quotes do not match.
-/

namespace Tabula.Csv

/-! ### Writing -/

/-- A text as a field: between quotes if it is empty or holds what would end it. -/
def textField (separator : Char) (s : String) : List Char :=
  let cs := s.toList
  let needsQuotes (c : Char) : Bool := c == separator || c == '"' || c == '\n' || c == '\r'
  if cs.isEmpty || cs.any needsQuotes then quoted cs else cs

/-- A value as a field; an empty cell is an empty field, and only texts are ever quoted. -/
def valueField (separator : Char) : Value → List Char
  | .null => []
  | .boolean b => (if b then "true" else "false").toList
  | .integer i => (toString i.toInt).toList
  | .float x => (Layout.compact.render x).toList
  | .string s => textField separator s

/-- Fields with separators between them, and a line break at the end. -/
def line (separator : Char) (fields : List (List Char)) : List Char :=
  [separator].intercalate fields ++ ['\n']

/-- The document of column names and rows. -/
def render (separator : Char) (names : List String) (rows : List (List Value)) : List Char :=
  line separator (names.map (textField separator)) ++
    if names.isEmpty then []
    else rows.flatMap fun values => line separator (values.map (valueField separator))

/-! ### Reading cells -/

/-- The integer of 64 bits that a text with digits and at most one sign denotes. -/
def int64? (cs : List Char) : Option Int64 :=
  let digits := dropSign cs
  if digits.isEmpty || !digits.all Char.isDigit then none
  else
    let n := Json.digitsValue digits
    Integer64.ofInt? (if cs.head? = some '-' then -(n : Int) else n)

/-- The magnitude that an unsigned text denotes: digits with at most one point, and an exponent; or
the name of what is not finite, in letters of any case. -/
def magnitude? (cs : List Char) : Option Nat :=
  let folded := cs.map Char.toLower
  if folded == "inf".toList || folded == "infinity".toList then some Grid.double.infinity
  else if folded == "nan".toList then some Binary64.nan.magnitude
  else
    let whole := cs.takeWhile Char.isDigit
    let (fraction, rest) := match cs.dropWhile Char.isDigit with
      | '.' :: rest => (rest.takeWhile Char.isDigit, rest.dropWhile Char.isDigit)
      | rest => ([], rest)
    if whole.isEmpty && fraction.isEmpty then none
    else match Json.readExponent? rest with
      | some (exponent, []) =>
        some (Decimal.nearest ⟨Json.digitsValue (whole ++ fraction),
          exponent.getD 0 - fraction.length⟩)
      | _ => none

/-- The floating-point number that a text denotes. -/
def binary64? (cs : List Char) : Option Binary64 :=
  (magnitude? (dropSign cs)).map fun m => .ofParts (cs.head? == some '-') m

/-- The truth value that a text denotes, in letters of any case. -/
def bool? (cs : List Char) : Option Bool :=
  let folded := cs.map Char.toLower
  if folded == "true".toList then some true
  else if folded == "false".toList then some false
  else none

/-- The cell of a field in which a reader finds nothing or something; none if it refuses. Blanks at
the front of a number are skipped. -/
def cell? {α : Type} (skipsBlanks : Bool) (read : List Char → Option α) (f : Field) :
    Option (Option α) :=
  if f.text.isEmpty then some none
  else if f.isQuoted && f.text.length < 2 then none
  else
    let cs := if f.isQuoted then inner f.text else f.text
    let cs := if skipsBlanks then cs.dropWhile fun c => c == ' ' || c == '\t' else cs
    if cs.isEmpty then some none else (read cs).map some

/-- The cell of a field in a column of texts; a quoted field is never empty. -/
def textCell? (f : Field) : Option (Option String) :=
  if f.text.isEmpty then some none
  else if f.isQuoted then (unquote? f.text).map fun cs => some (String.ofList cs)
  else some (some (String.ofList f.text))

/-- The cells of the fields of one column. -/
def cells? (type : ColumnType) (fields : List Field) : Option Cells :=
  match type with
  | .integer => (fields.mapM (cell? true int64?)).map (.ints .i64)
  | .float => (fields.mapM (cell? true binary64?)).map .floats64
  | .boolean => (fields.mapM (cell? false bool?)).map .booleans
  | .string => (fields.mapM textCell?).map .strings

/-! ### Reading documents -/

/-- The field without a carriage return at its end. -/
def Field.trimReturn (f : Field) : Field :=
  if f.text.getLast? = some '\r' then ⟨f.text.dropLast, f.isQuoted⟩ else f

/-- The name that a field of the first line gives; doubled quotes stay as they are. -/
def headerName (f : Field) : String :=
  String.ofList (if f.isQuoted && 2 ≤ f.text.length then inner f.text else f.text)

/-- The names, those that occurred before among `seen` marked with the number of the repetition. -/
def markRepeated (seen : List String) : List String → List String
  | [] => []
  | name :: names =>
    let marked :=
      match seen.count name with
      | 0 => name
      | k + 1 => name ++ "_duplicated_" ++ toString k
    marked :: markRepeated (name :: seen) names

/-- The column names in the first line. -/
def headerNames (separator : Char) (header : List Char) : List String :=
  let cs := dropReturn header
  markRepeated [] ((scanFields separator (cs.length + 1) cs).1.map headerName)

/-- The records of a text. The lines with a break at their end and the line after them are read on
their own, and have to hold as many records as there are lines. -/
def records? (separator : Char) (n : Nat) (body : List Char) : Option (List (List Field)) :=
  let (count, complete, tail) := completeLines false body
  (scanRecords? separator n count complete).bind fun records =>
    (scanRecords? separator n (if tail.isEmpty then 0 else 1) tail).map (records ++ ·)

/-- The fields of the records at a position; a record that ends before it has an empty field. -/
def fieldsAt (records : List (List Field)) (i : Nat) : List Field :=
  records.map fun fields => (fields[i]?.getD ⟨[], false⟩).trimReturn

/-- Whether a character breaks a line. -/
def isLineBreak (c : Char) : Bool := c == '\n' || c == '\r'

/-- The frame that a document holds. Line breaks before the first line are skipped; yet in a
document of one column each of them but the first is an empty line. -/
def readText? (o : Options) (text : List Char) : Option Frame :=
  let separator := Char.ofNat o.separator.toNat
  let text := if text.head? = some '\ufeff' then text.drop 1 else text
  let start := text.dropWhile isLineBreak
  if start.isEmpty then none
  else
    let (header, following) := splitLine false start
    let names := headerNames separator header
    let n := names.length
    let sample := lines false following
    let types := columnTypes separator n
      (match o.scanLength with
        | some k => sample.take k.toNat
        | none => sample)
    let body := (splitLine false (if n = 1 then text else start)).2
    (records? separator n body).bind fun records =>
      ((names.zip types).zipIdx.mapM fun ((name, type), i) =>
        (cells? type (fieldsAt records i)).map fun cells => (⟨name, cells⟩ : Series)).bind
          fun series => (Frame.ofSeries series).toOption

/-- The number of bytes up to the end of the first line. -/
def headerSize : Bool → List UInt8 → Nat
  | _, [] => 0
  | inside, b :: bs =>
    if b = 10 && !inside then 1 else 1 + headerSize (if b = 34 then !inside else inside) bs

/-- The number of bytes up to the end of the first line that is not empty, the mark of the encoding
before it included. -/
def leadSize (bytes : List UInt8) : Nat :=
  let start := (if bytes.take 3 = [0xef, 0xbb, 0xbf] then bytes.drop 3 else bytes).dropWhile
    fun b => b = 10 || b = 13
  bytes.length - start.length + headerSize false start

/-- The characters of a document. Only the first line may hold bytes that encode nothing. -/
def decode? (bytes : ByteArray) : Option (List Char) :=
  match Utf8.strict? bytes with
  | some cs => some cs
  | none =>
    let lead := leadSize bytes.toList
    (Utf8.strict? (bytes.extract lead bytes.size)).map fun rest =>
      Utf8.lossy (bytes.extract 0 lead) ++ rest

/-- The frame that the bytes of a document hold. -/
def read? (o : Options) (bytes : ByteArray) : Option Frame := (decode? bytes).bind (readText? o)

end Tabula.Csv
