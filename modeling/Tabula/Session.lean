import Tabula.Encoding.Encoder
import Tabula.Files.FileSystem

/-!
# Sessions

A session is what outlives a single operation: the file system, the events that were logged, and how
many tables were made. Every table that is made gets a serial number of its own; a copy keeps the
number of its source, and so does a row that is read from a table.

* `Instance` — a table with its serial number.
* `SharedRow` — a row with the serial number of the table or schema that it belongs to.
* `Action` — an operation on a session; what it did before a failure stays.
* `Attempt` — an operation that, besides failing, may take the program down.
* `EncoderAction` — an operation on a session that may change an encoder.
* `Instance.rename`, `Instance.transform`, … — the operations on tables, as actions.
-/

namespace Tabula

/-- How important an event is. -/
inductive Level where
  | debug
  | info
  deriving DecidableEq, Repr

/-- The name of the level. -/
def Level.label : Level → String
  | .debug => "DEBUG"
  | .info => "INFO"

/-- Something that is worth telling. -/
structure Event where
  level : Level
  text : String
  deriving DecidableEq, Repr

/-- What outlives a single operation. -/
structure Session where
  files : FileSystem
  /-- The events since they were last asked for, in order. -/
  events : List Event
  /-- The number of tables made so far. -/
  issued : Nat

/-- An empty working directory, no events and no tables. -/
def Session.initial : Session := ⟨.initial, [], 0⟩

instance : Inhabited Session := ⟨.initial⟩

/-- An operation on a session. -/
abbrev Action (α : Type) := ExceptT Error (StateM Session) α

/-- What ends an operation before it has an answer. -/
inductive Interruption where
  /-- A failure, of which the caller is told. -/
  | failure (e : Error)
  /-- The program is taken down. Nobody is told anything. -/
  | abort
  deriving DecidableEq, Repr

/-- An operation on a session that may also take the program down. What it did before stays. -/
abbrev Attempt (α : Type) := ExceptT Interruption (StateM Session) α

/-- An operation that can only fail never takes the program down. -/
instance : MonadLift (ExceptT Error (StateM Session)) (ExceptT Interruption (StateM Session)) :=
  ⟨ExceptT.adapt .failure⟩

/-- A table that was made in a session. -/
structure Instance where
  serial : Nat
  table : Table

/-- A schema that rows are made for, with a serial number like that of a table. -/
structure SharedSchema where
  serial : Nat
  schema : Schema
  deriving DecidableEq

/-- A row with the serial number of what it shares its schema with: the table that it was read
from, or the schema that it was made for. -/
structure SharedRow where
  serial : Nat
  row : Row
  deriving DecidableEq

namespace Action

def log (level : Level) (text : String) : Action Unit :=
  modify fun s => { s with events := s.events ++ [⟨level, text⟩] }

/-- A result that does not depend on the session. -/
def ofResult {α : Type} (r : Except Error α) : Action α := ExceptT.mk (pure r)

/-- A new table with the next serial number. -/
def issue (t : Table) : Action Instance := do
  let s ← get
  set { s with issued := s.issued + 1 }
  return ⟨s.issued, t⟩

/-- A new table, if there is one. -/
def build (r : Except Error Table) : Action Instance := do issue (← ofResult r)

/-- The events since they were last asked for. -/
def takeEvents : Action (List Event) := do
  let s ← get
  set { s with events := [] }
  return s.events

end Action

/-- An operation on a session that may change an encoder. What it did to either before a failure
stays. -/
abbrev EncoderAction (α : Type) := ExceptT Error (StateT Encoder (StateM Session)) α

namespace EncoderAction

/-- A call of the encoder, which leaves the session alone. -/
def ofCall {α : Type} (c : Encoder.Call α) : EncoderAction α :=
  ExceptT.mk fun e => pure (c.run.run e)

/-- An operation on the session, which leaves the encoder alone. -/
def ofAction {α : Type} (a : Action α) : EncoderAction α := ExceptT.mk (StateT.lift a.run)

/-- Tells of something that the encoder did, after the name of its kind. -/
def log (level : Level) (text : String) : EncoderAction Unit := do
  ofAction (Action.log level ((← get).rule.encoderName ++ text))

end EncoderAction

/-- The events of bringing series into canonical storage, up to the first that cannot be brought. -/
def normalizationEvents : List Series → List Event
  | [] => []
  | s :: rest =>
    match s.normalize with
    | .error _ => []
    | .ok (normalized, _) =>
      if normalized.dtype = s.dtype then normalizationEvents rest
      else
        ⟨.debug, "Normalized column '" ++ s.name ++ "' from " ++ s.dtype.label ++ " to " ++
          normalized.dtype.label⟩ :: normalizationEvents rest

/-- A schema to make rows for, with the next serial number. -/
def SharedSchema.issue (schema : Schema) : Action SharedSchema := do
  let s ← get
  set { s with issued := s.issued + 1 }
  return ⟨s.issued, schema⟩

/-- The row of the values, which have to fit the schema. -/
def SharedRow.ofValues (s : SharedSchema) (values : List Value) : Except Error SharedRow := do
  return ⟨s.serial, ← Row.ofValues s.schema values⟩

/-- The table of rows, which have to agree in their schemas. Rows with one number share theirs, so
these need not be compared. -/
def SharedRow.toTable : List SharedRow → Except Error Table
  | [] => .ok .empty
  | first :: rest => do
    if rest.any fun r => r.serial ≠ first.serial ∧ r.row.schema ≠ first.row.schema then
      throw .schemaMismatch
    Table.ofAgreeing first.row.schema ((first :: rest).map SharedRow.row)

namespace Instance

/-! ### Making tables -/

/-- The table without columns and rows. -/
def empty : Action Instance := Action.issue .empty

/-- The table of a frame. -/
def ofFrame (f : Frame) : Action Instance := do
  (normalizationEvents f.series).forM fun e => Action.log e.level e.text
  Action.build (Table.ofFrame f)

def ofColumns (columns : List Column) : Action Instance := Action.build (Table.ofColumns columns)

/-- The table of rows. It is a new one, also if all of them belong to one table. -/
def ofSharedRows (rows : List SharedRow) : Action Instance := Action.build (SharedRow.toTable rows)

variable (i : Instance)

/-- A copy is the same table. -/
def copy : Action Instance := return i

/-! ### Reading rows -/

/-- The row with the index, which belongs to the table. -/
def row (index : Int) : Except Error SharedRow := do return ⟨i.serial, ← i.table.row index⟩

/-- All rows, which belong to the table. -/
def toRows : Except Error (List SharedRow) := do
  return (← i.table.toRows).map fun r => ⟨i.serial, r⟩

/-! ### Changing columns -/

/-- The table with one column under another name; under its own name it stays the same table. -/
def rename (old new : String) : Action Instance := do
  let t ← Action.ofResult (i.table.rename old new)
  if old = new then return i else Action.issue t

def drop (names : List String) : Action Instance := Action.build (i.table.drop names)

def keep (names : List String) : Action Instance := Action.build (i.table.keep names)

def replace (c : Column) : Action Instance := Action.build (i.table.replace c)

/-! ### Encoding columns -/

/-- The encoder learns the mapping of a column. -/
def fit (name : String) : EncoderAction Unit := do
  EncoderAction.ofCall (Encoder.fit i.table name)
  let count := match (← get).mappings.get? name with
    | some m => m.length
    | none => 0
  EncoderAction.log .debug (" fitted on '" ++ name ++ "' (" ++ toString count ++ " categories)")

def transform (e : Encoder) (name : String) : Action Instance :=
  Action.build (e.transform i.table name)

def inverse (e : Encoder) (name : String) : Action Instance :=
  Action.build (e.inverse i.table name)

/-- The encoder learns the mappings of the columns, and all of them are encoded; without any column
the table stays the same. -/
def fitTransform (names : List String) : EncoderAction Instance := do
  let t ← EncoderAction.ofCall (Encoder.fitTransform i.table names)
  EncoderAction.log .info (" fit_transform encoded " ++ toString names.length ++ " column(s)")
  if names.isEmpty then return i else EncoderAction.ofAction (Action.issue t)

/-! ### Comparing tables -/

/-- Whether one of two tables is a copy of the other. -/
def same (i j : Instance) : Bool := i.serial == j.serial

/-- Whether two tables are equal. Copies of a table are, so their values need not be looked at. -/
def equal (i j : Instance) : Bool := i.same j || i.table == j.table

instance : BEq Instance := ⟨equal⟩

end Instance

end Tabula
