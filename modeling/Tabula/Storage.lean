import Tabula.Csv.Document
import Tabula.Records.Document
import Tabula.Session

/-!
# Tables in files

* `Table.document` — the text of the file that a table is saved in.
* `Reading.ofEntry` — what comes of reading a file: a frame, a refusal, or the end of the program.
* `Instance.save` — writes the file, and the directories above it if the options say so.
* `Instance.load` — the table in a file.
-/

namespace Tabula

/-- The text of the file that a table is saved in. -/
def Table.document (t : Table) (format : FileFormat) (o : Options) : Except Error (List Char) := do
  let rows := (← t.toRows).map Row.values
  return match format with
    | .csv => Csv.render (Char.ofNat o.separator.toNat) t.columnNames rows
    | .json => Records.render o.layout t.columnNames rows

/-! ### Reading -/

/-- The bytes that compressed data begins with: gzip, zlib at its four levels, and zstd. -/
def compressionMarks : List (List UInt8) :=
  [[0x1f, 0x8b], [0x78, 0x01], [0x78, 0x5e], [0x78, 0x9c], [0x78, 0xda], [0x28, 0xb5, 0x2f, 0xfd]]

/-- Whether contents are taken for compressed data. Less than four bytes never are. -/
def looksCompressed (contents : ByteArray) : Bool :=
  4 ≤ contents.size && compressionMarks.any fun mark => mark.isPrefixOf contents.data.toList

/-- What comes of reading what stands at a place. -/
inductive Reading where
  | frame (f : Frame)
  /-- There is no frame of the format. -/
  | refused
  /-- The reader of the format does not come back, and takes the program with it. -/
  | abort

namespace Reading

/-- What comes of a reader that always comes back. -/
def ofOption : Option Frame → Reading
  | some f => frame f
  | none => refused

/-- What comes of reading a file as CSV. Only contents can be read, everything else is refused. -/
def ofCsv (o : Options) : Entry → Reading
  | .file contents => ofOption (Csv.read? o contents)
  | .directory | .fullDevice => refused

/-- What comes of reading a file as JSON. It is mapped into memory first, which a directory and a
device do not allow, and in the layout of records compressed data is recognised, which cannot be
unpacked. The reader is not prepared for any of this. -/
def ofJson (o : Options) : Entry → Reading
  | .file contents =>
    if o.layout = .records ∧ looksCompressed contents then abort
    else ofOption (Records.read? o contents)
  | .directory | .fullDevice => abort

/-- What comes of reading a file as the format. -/
def ofEntry (format : FileFormat) (o : Options) (e : Entry) : Reading :=
  match format with
  | .csv => ofCsv o e
  | .json => ofJson o e

end Reading

/-! ### Operations -/

namespace Action

/-- Refuses options that are not valid. -/
def checkOptions (o : Options) : Action Unit := ofResult (o.check.mapError .invalidOptions)

/-- Makes the directories above a file that is to be written. -/
def ensureParents (format : FileFormat) (path : String) : Action Unit := do
  match Path.parent? path with
  | none | some "" => return
  | some parent =>
    let s ← get
    let (files, result) := s.files.makeDirectories parent
    set { s with files := files }
    match result with
    | .error fault => throw (.file .write format path (.system fault))
    | .ok () => log .debug ("Ensured output directory: " ++ parent)

/-- Writes a file. What a device does not take is refused by the writer and not by the system. -/
def writeFile (format : FileFormat) (path : String) (contents : ByteArray) : Action Unit := do
  let s ← get
  match s.files.write path contents with
  | .ok files => set { s with files := files }
  | .error .noSpace => throw (.file .write format path (.engine "the data could not be written"))
  | .error fault => throw (.file .write format path (.system fault))

/-- A file without contents, new or in place of an earlier one. -/
def createFile (format : FileFormat) (path : String) : Action Unit :=
  writeFile format path .empty

/-- What stands where a path leads to. -/
def openFile (format : FileFormat) (path : String) : Action Entry := do
  match (← get).files.entryAt path with
  | .ok e => return e
  | .error .notFound => throw (.fileNotFound path)
  | .error fault => throw (.file .read format path (.system fault))

end Action

namespace Instance

/-- Writes the table to a file. The options are checked before anything else, and an earlier file is
emptied before the table is looked at. -/
def save (i : Instance) (format : FileFormat) (o : Options) (path : String) : Action Unit := do
  Action.checkOptions o
  if o.createsParents then Action.ensureParents format path
  Action.createFile format path
  let text ← Action.ofResult ((i.table.document format o).mapError (.fileTable .write format path))
  Action.writeFile format path (String.ofList text).toUTF8
  Action.log .info ("Table saved: " ++ path)

/-- The table of a frame that has been read from a file. -/
def ofRead (format : FileFormat) (path : String) (f : Frame) : Action Instance := do
  (normalizationEvents f.series).forM fun e => Action.log e.level e.text
  let t ← Action.ofResult ((Table.ofFrame f).mapError (.fileTable .read format path))
  Action.log .info ("Loaded " ++ format.label ++ " " ++ path ++ " (" ++ toString t.rowCount ++
    " rows x " ++ toString t.columnCount ++ " columns)")
  Action.issue t

/-- The table in a file. The options are checked before anything else. -/
def load (format : FileFormat) (o : Options) (path : String) : Attempt Instance := do
  Action.checkOptions o
  match Reading.ofEntry format o (← Action.openFile format path) with
  | .abort => throw .abort
  | .refused =>
    throw (.failure (.file .read format path (.engine "the contents are not of the format")))
  | .frame f => ofRead format path f

end Instance

end Tabula
