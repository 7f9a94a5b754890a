import Tabula.Error
import Tabula.Series.Basic

/-!
# Series and values

* `Series.normalize` — the series in the canonical storage type of the column type it is accepted
  as.
* `Series.values` — the values of a series of canonical type; `Series.value` is one of them.
* `Series.ofValues` — the series of values of one column type.
-/

namespace Tabula

/-- The value of a cell that is empty or holds something. -/
def Value.ofOption {α : Type} (f : α → Value) : Option α → Value
  | none => .null
  | some a => f a

/-- The cells in the canonical storage type of the column type they are accepted as. It fails for an
integer beyond 64 bits with a sign and for a type that tables do not accept. -/
def Cells.normalize? : Cells → Option Cells
  | .ints w cs => (cs.mapM fun c =>
      match c with
      | none => some none
      | some n => (w.toInt64? n).map some).map (.ints .i64)
  | .floats32 cs => some (.floats64 (cs.map (·.map Binary32.widen)))
  | .floats64 cs => some (.floats64 cs)
  | .booleans cs => some (.booleans cs)
  | .strings cs => some (.strings cs)
  | .nulls n => some (.strings (List.replicate n none))
  | .categories _ cs => some (.strings cs)
  | .foreign _ _ => none

namespace Series

/-- The series in the canonical storage type of the column type it is accepted as. -/
def normalize (s : Series) : Except Error (Series × ColumnType) :=
  match s.dtype.columnType? with
  | none => .error (.unsupportedType s.name s.dtype.label)
  | some t =>
    if s.dtype = t.dtype then .ok (s, t)
    else match s.cells.normalize? with
      | some cells => .ok (⟨s.name, cells⟩, t)
      | none =>
        Error.within ("Casting column '" ++ s.name ++ "' to " ++ t.dtype.label)
          (.error (.engine "a value does not fit the target type"))

/-- The values of the series, which must have the canonical storage type of the column type. -/
def values (s : Series) (t : ColumnType) : Except Error (List Value) :=
  match t, s.cells with
  | .integer, .ints .i64 cs => .ok (cs.map (Value.ofOption .integer))
  | .float, .floats64 cs => .ok (cs.map (Value.ofOption .float))
  | .string, .strings cs => .ok (cs.map (Value.ofOption .string))
  | .boolean, .booleans cs => .ok (cs.map (Value.ofOption .boolean))
  | _, _ => .error (.engine "the series has another storage type")

/-- The value of the cell at a position. -/
def value (s : Series) (i : Nat) : Except Error Value :=
  match s.cells.scalar? i with
  | some a => .ok a.toValue
  | none => .error (.engine "the series has no such cell")

/-- The series of values of one column type; empty cells belong to every type. -/
def ofValues (name : String) (t : ColumnType) (vs : List Value) : Except Error Series :=
  match vs.find? fun v => !t.accepts v with
  | some bad => .error (.typeMismatch name t bad.typeName)
  | none =>
    .ok ⟨name, match t with
      | .integer => .ints .i64 (vs.map Value.int64?)
      | .float => .floats64 (vs.map Value.binary64?)
      | .string => .strings (vs.map Value.string?)
      | .boolean => .booleans (vs.map Value.bool?)⟩

end Series

end Tabula
