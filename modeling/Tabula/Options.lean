import Tabula.Json.View

/-!
# Options for reading and writing files

* `Options` — separator, rows scanned for types, layout of JSON files, creation of directories.
* `Options.check` — refuses a separator that cannot separate, then a scan of no rows.
* `OptionsBuilder` — options set one by one over the defaults, checked at the end.
* `Options.json`, `Options.parse?` — the options as JSON text. Reading accepts the members in any
  order, unknown members between them, and an array of the four values.
-/

namespace Tabula

/-- How the rows of a table are laid out in a JSON file. -/
inductive RecordLayout where
  /-- One array with an object for every row. -/
  | records
  /-- One object on every line. -/
  | lines
  deriving DecidableEq, Repr, Inhabited

/-- What is wrong with options. -/
inductive OptionsFault where
  | separator (byte : UInt8)
  | scanLength
  deriving DecidableEq, Repr

/-- The name of the layout in JSON text. -/
def RecordLayout.label : RecordLayout → String
  | .records => "Records"
  | .lines => "Lines"

/-- The layout with the given name. -/
def RecordLayout.ofLabel? (s : String) : Option RecordLayout :=
  if s = "Records" then some .records else if s = "Lines" then some .lines else none

/-- The text of the fault, with the byte as two hexadecimal digits. -/
def OptionsFault.message : OptionsFault → String
  | .separator b =>
    "Invalid CSV separator byte 0x" ++
      String.ofList [Json.hexDigit (b.toNat / 16), Json.hexDigit b.toNat] ++
      " (must be ASCII, not a quote or line break)"
  | .scanLength => "Invalid schema inference length: 0 (use None to scan all rows)"

/-- Options for reading and writing files. -/
structure Options where
  /-- The byte between the fields of a CSV line. -/
  separator : UInt8
  /-- How many rows are scanned for the types of columns; without a bound all are. -/
  scanLength : Option UInt64
  layout : RecordLayout
  /-- Whether writing creates missing directories above the file. -/
  createsParents : Bool
  deriving DecidableEq, Repr

namespace Options

/-- Comma, one hundred rows, records, directories created. -/
def default : Options := ⟨44, some 100, .records, true⟩

instance : Inhabited Options := ⟨default⟩

/-- Whether a byte can separate fields: it is ASCII, and neither a quote nor a line break. -/
def separates (b : UInt8) : Bool := b < 128 && b != 34 && b != 10 && b != 13

/-- Refuses a separator that cannot separate, then a scan of no rows. -/
def check (o : Options) : Except OptionsFault Unit :=
  if ¬separates o.separator then .error (.separator o.separator)
  else if o.scanLength = some 0 then .error .scanLength
  else .ok ()

/-- The options as JSON text, the members in a fixed order and without blanks. -/
def json (o : Options) : String :=
  let scan := match o.scanLength with
    | some n => toString n.toNat
    | none => "null"
  "\x7b\"csv_separator\":" ++ toString o.separator.toNat ++
    ",\"infer_schema_length\":" ++ scan ++
    ",\"json_layout\":\"" ++ o.layout.label ++
    "\",\"create_parent_dirs\":" ++ (if o.createsParents then "true" else "false") ++ "\x7d"

/-- The number of scanned rows, null for no bound. -/
def scanLength? : Json → Option (Option UInt64)
  | .null => some none
  | j => (j.natBelow? UInt64.size).map fun n => some (UInt64.ofNat n)

/-- The options given by the JSON values of the four fields. -/
def ofFields? (separator scan layout parents : Json) : Option Options := do
  return {
    separator := UInt8.ofNat (← separator.natBelow? UInt8.size)
    scanLength := ← scanLength? scan
    layout := ← layout.label?.bind RecordLayout.ofLabel?
    createsParents := ← parents.bool? }

/-- The options that a JSON value denotes. In an object only the number of scanned rows may be
missing. -/
def ofJson? : Json → Option Options
  | .array [separator, scan, layout, parents] => ofFields? separator scan layout parents
  | .object members => do
    guard (members.all fun m => m.1.isSome)
    let separator ← Json.member? "csv_separator" members
    let scan ← Json.member? "infer_schema_length" members
    let layout ← Json.member? "json_layout" members
    let parents ← Json.member? "create_parent_dirs" members
    ofFields? (← separator) (scan.getD .null) (← layout) (← parents)
  | _ => none

/-- The options that a JSON text denotes. -/
def parse? (text : String) : Option Options := (Json.parse? text).bind ofJson?

end Options

/-- Options set one by one; a field that was not set keeps its default. -/
structure OptionsBuilder where
  separator : Option UInt8 := none
  scanLength : Option (Option UInt64) := none
  layout : Option RecordLayout := none
  createsParents : Option Bool := none
  deriving DecidableEq, Repr

namespace OptionsBuilder

def withSeparator (b : OptionsBuilder) (separator : UInt8) : OptionsBuilder :=
  { b with separator := some separator }

def withScanLength (b : OptionsBuilder) (scanLength : Option UInt64) : OptionsBuilder :=
  { b with scanLength := some scanLength }

def withLayout (b : OptionsBuilder) (layout : RecordLayout) : OptionsBuilder :=
  { b with layout := some layout }

def withCreatesParents (b : OptionsBuilder) (createsParents : Bool) : OptionsBuilder :=
  { b with createsParents := some createsParents }

/-- The fields that were set, the others as in the given options. -/
def onto (b : OptionsBuilder) (o : Options) : Options :=
  ⟨b.separator.getD o.separator, b.scanLength.getD o.scanLength, b.layout.getD o.layout,
    b.createsParents.getD o.createsParents⟩

/-- The options built, if they are valid. -/
def build (b : OptionsBuilder) : Except OptionsFault Options :=
  let o := b.onto .default
  o.check.map fun _ => o

end OptionsBuilder

end Tabula
