import Tabula.Options
import Tabula.Value.Text

/-!
# Errors

Every failure is an `Error`: a cause with what belongs to it, possibly around another error.

* `Error.message` — the text. The text of an inner error always stands at its end.
* `Error.code` — a stable name for the kind of error. A context is transparent: the code, the
  missing names and `Error.isNotFitted` are those of the error inside.
* `Error.chain` — the texts of the causes, from the outermost inwards.
* `checkedIndex`, `elementAt` — positions in a list, and the one error about them.
-/

namespace Tabula

/-- Why the operating system refused. -/
inductive SystemFault where
  | notFound
  | exists
  | notDirectory
  | isDirectory
  | noSpace
  | nameTooLong
  /-- A path holds the character that ends texts for the system. -/
  | nulByte
  deriving DecidableEq, Repr

/-- The text of the fault, with its number if it has one. -/
def SystemFault.message : SystemFault → String
  | .notFound => "No such file or directory (os error 2)"
  | .exists => "File exists (os error 17)"
  | .notDirectory => "Not a directory (os error 20)"
  | .isDirectory => "Is a directory (os error 21)"
  | .noSpace => "No space left on device (os error 28)"
  | .nameTooLong => "File name too long (os error 36)"
  | .nulByte => "file name contained an unexpected NUL byte"

/-- Why the categories of a column could not be learned. -/
inductive LearningFault where
  | noValues
  | nullInOrder
  | wrongType (category : Value) (expected : ColumnType)
  | repeated (category : Value)
  | uncovered (category : Value)
  | other (text : String)
  deriving DecidableEq, Repr

/-- The text of the fault. -/
def LearningFault.message : LearningFault → String
  | .noValues => "no non-null values to learn categories from"
  | .nullInOrder => "category order contains null"
  | .wrongType v t =>
    "category '" ++ v.display ++ "' is a " ++ v.typeName ++ " but the column holds " ++ t.label ++
      " values"
  | .repeated v => "category '" ++ v.display ++ "' appears twice in the order"
  | .uncovered v => "found category '" ++ v.display ++ "' that is not in the supplied order"
  | .other s => s

/-- A format of files. -/
inductive FileFormat where
  | csv
  | json
  deriving DecidableEq, Repr

/-- The name of the format in messages. -/
def FileFormat.label : FileFormat → String
  | .csv => "CSV"
  | .json => "JSON"

instance : Coe FileFormat String := ⟨FileFormat.label⟩

/-- What was done with a file. -/
inductive FileAction where
  | read
  | write
  deriving DecidableEq, Repr

/-- A failure outside the tables while a file was read or written. -/
inductive FileFault where
  | system (fault : SystemFault)
  /-- The contents, or the device they were sent to, were refused. -/
  | engine (text : String)
  | other (text : String)
  deriving DecidableEq, Repr

/-- The text of the fault. -/
def FileFault.message : FileFault → String
  | .system f => f.message
  | .engine s => s
  | .other s => s

/-- A failure of a table or encoder operation. -/
inductive Error where
  | missingColumns (names : List String)
  | duplicateColumn (name : String)
  | indexOutOfBounds (index : Int) (length : Nat)
  | learning (column : String) (fault : LearningFault)
  | notFitted (column : String)
  /-- A column of several could not be fitted and encoded, for the reason inside. -/
  | fitFailed (column : String) (cause : Error)
  | unknownCategory (column : String) (category : String)
  | fileNotFound (path : String)
  /-- A file, of a format that is given by its name, could not be read or written. -/
  | file (action : FileAction) (format : String) (path : String) (fault : FileFault)
  /-- A file was read or written, but the table in it was refused. -/
  | fileTable (action : FileAction) (format : String) (path : String) (cause : Error)
  | unsupportedType (column : String) (dtype : String)
  | typeMismatch (column : String) (expected : ColumnType) (found : String)
  | lengthMismatch (column : String) (expected found : Nat)
  | schemaMismatch
  | invalidOptions (fault : OptionsFault)
  /-- The storage of series and frames refused. -/
  | engine (text : String)
  | context (text : String) (inner : Error)
  deriving DecidableEq, Repr

namespace Error

/-- Names in single quotes, with commas between them. -/
def quoteNames (names : List String) : String :=
  ", ".intercalate (names.map fun n => "'" ++ n ++ "'")

/-- What precedes the cause in the text of a failure with a file. -/
def fileText (action : FileAction) (format : String) (path : String) : String :=
  match action with
  | .read => "Could not read file from \"" ++ path ++ "\" as " ++ format ++ ": "
  | .write => "Could not write " ++ format ++ " file \"" ++ path ++ "\": "

/-- The text of the error. -/
def message : Error → String
  | missingColumns names => "Could not find column(s) " ++ quoteNames names
  | duplicateColumn name => "Column '" ++ name ++ "' already exists"
  | indexOutOfBounds i n =>
    "There is no element at index " ++ toString i ++ " (length " ++ toString n ++ ")"
  | learning c f => "Failed to fit encoder on column '" ++ c ++ "': " ++ f.message
  | notFitted c => "Encoder has not been fitted on column '" ++ c ++ "'"
  | fitFailed c e => "Encoder has not been fitted on column '" ++ c ++ "': " ++ e.message
  | unknownCategory c v => "Unknown category '" ++ v ++ "' in column '" ++ c ++ "'"
  | fileNotFound p => "File \"" ++ p ++ "\" does not exist"
  | file a f p fault => fileText a f p ++ fault.message
  | fileTable a f p e => fileText a f p ++ e.message
  | unsupportedType c t => "Column '" ++ c ++ "' has unsupported data type " ++ t
  | typeMismatch c t found =>
    "Column '" ++ c ++ "' expects " ++ t.label ++ " values, found " ++ found
  | lengthMismatch c expected found =>
    "Column '" ++ c ++ "' has " ++ toString found ++ " rows, expected " ++ toString expected
  | schemaMismatch => "Rows do not share the same schema"
  | invalidOptions f => "Invalid configuration: " ++ f.message
  | engine s => "Polars error: " ++ s
  | context s e => s ++ ": " ++ e.message

/-- The stable name of the kind of error. -/
def code : Error → String
  | missingColumns _ => "COLUMN_NAME"
  | duplicateColumn _ => "COLUMN_NAME_DUPLICATE"
  | indexOutOfBounds .. => "INDEX_OUT_OF_BOUNDS"
  | learning .. => "LEARNING"
  | notFitted _ | fitFailed .. => "NOT_FITTED"
  | unknownCategory .. => "UNKNOWN_CATEGORY"
  | fileNotFound _ => "FILE_NOT_FOUND"
  | file .read .. | fileTable .read .. => "READ_FAILED"
  | file .write .. | fileTable .write .. => "WRITE_FAILED"
  | unsupportedType .. => "UNSUPPORTED_TYPE"
  | typeMismatch .. => "TYPE_MISMATCH"
  | lengthMismatch .. => "LENGTH_MISMATCH"
  | schemaMismatch => "SCHEMA_MISMATCH"
  | invalidOptions _ => "INVALID_CONFIG"
  | engine _ => "POLARS_ERROR"
  | context _ e => e.code

/-- Whether the error says that an encoder has no mapping for a column. -/
def isNotFitted : Error → Bool
  | notFitted _ | fitFailed .. => true
  | context _ e => e.isNotFitted
  | _ => false

/-- The names of the missing columns. -/
def missingNames : Error → List String
  | missingColumns names => names
  | context _ e => e.missingNames
  | _ => []

/-- The texts of the causes, from the outermost inwards. -/
def chain : Error → List String
  | fitFailed _ e | fileTable _ _ _ e | context _ e => e.message :: e.chain
  | file _ _ _ fault => [fault.message]
  | invalidOptions f => [f.message]
  | engine s => [s]
  | _ => []

/-- The text of the refusal by the storage that ends the causes, if one does. -/
def engineText? : Error → Option String
  | fitFailed _ e | fileTable _ _ _ e | context _ e => e.engineText?
  | file _ _ _ (.engine s) => some s
  | engine s => some s
  | _ => none

/-- Code and message as a JSON object. -/
def json (e : Error) : String :=
  "\x7b\"code\":" ++ String.ofList (Json.quote e.code) ++
    ",\"message\":" ++ String.ofList (Json.quote e.message) ++ "\x7d"

/-- A result whose error, if it is one, is put into a context. -/
def within {α : Type} (text : String) (r : Except Error α) : Except Error α :=
  r.mapError (.context text)

end Error

/-! ### Positions in a list -/

/-- The position that an index names in a list of the given length. -/
def checkedIndex (index : Int) (length : Nat) : Except Error Nat :=
  if 0 ≤ index ∧ index < length then .ok index.toNat else .error (.indexOutOfBounds index length)

/-- The element at a position, which has to exist. -/
def elementAt {α : Type} (xs : List α) (i : Nat) : Except Error α :=
  match xs[i]? with
  | some x => .ok x
  | none => .error (.indexOutOfBounds i xs.length)

end Tabula
