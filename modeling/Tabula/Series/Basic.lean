import Tabula.Series.Scalar

/-!
# Series

A series is a named list of cells of one storage type. Storage types are wider than the four types
of table columns; every column type has one canonical storage type.

* `DType` — the storage types and their names.
* `Cells` — the cells of a series, typed by construction; `Cells.scalar?` reads one of them.
* `ColumnType.dtype` — the canonical storage type of a column type.
* `DType.columnType?` — the column type that a storage type is accepted as.
-/

namespace Tabula

/-- The two kinds of texts drawn from a fixed set. -/
inductive CategoryKind where
  | categorical
  | enumeration
  deriving DecidableEq, Repr

/-- The storage type of a series. -/
inductive DType where
  | int (w : IntWidth)
  | float32
  | float64
  | boolean
  | string
  /-- The type of a series without any value. -/
  | null
  | category (kind : CategoryKind)
  /-- A type that tables do not accept, by its name. -/
  | foreign (name : String)
  deriving DecidableEq, Repr

namespace DType

/-- The name of the storage type. -/
def label : DType → String
  | int w => w.label
  | float32 => "f32"
  | float64 => "f64"
  | boolean => "bool"
  | string => "str"
  | null => "null"
  | category .categorical => "cat"
  | category .enumeration => "enum"
  | foreign s => s

def isInteger : DType → Bool
  | int _ => true
  | _ => false

def isFloat : DType → Bool
  | float32 | float64 => true
  | _ => false

/-- The column type that a series of the storage type is accepted as, if it is. -/
def columnType? : DType → Option ColumnType
  | int _ => some .integer
  | float32 | float64 => some .float
  | boolean => some .boolean
  | string | null | category _ => some .string
  | foreign _ => none

end DType

/-- The canonical storage type of a column type. -/
def ColumnType.dtype : ColumnType → DType
  | .integer => .int .i64
  | .float => .float64
  | .string => .string
  | .boolean => .boolean

/-- The cells of a series. -/
inductive Cells where
  | ints (w : IntWidth) (cells : List (Option w.Word))
  | floats32 (cells : List (Option Binary32))
  | floats64 (cells : List (Option Binary64))
  | booleans (cells : List (Option Bool))
  | strings (cells : List (Option String))
  | nulls (length : Nat)
  | categories (kind : CategoryKind) (cells : List (Option String))
  /-- Cells of a type that tables do not accept; only their number matters. -/
  | foreign (name : String) (length : Nat)

namespace Cells

def dtype : Cells → DType
  | ints w _ => .int w
  | floats32 _ => .float32
  | floats64 _ => .float64
  | booleans _ => .boolean
  | strings _ => .string
  | nulls _ => .null
  | categories kind _ => .category kind
  | foreign name _ => .foreign name

def length : Cells → Nat
  | ints _ cs => cs.length
  | floats32 cs => cs.length
  | floats64 cs => cs.length
  | booleans cs => cs.length
  | strings cs => cs.length
  | nulls n => n
  | categories _ cs => cs.length
  | foreign _ n => n

/-- The number of empty cells. -/
def nullCount : Cells → Nat
  | ints _ cs => cs.countP Option.isNone
  | floats32 cs => cs.countP Option.isNone
  | floats64 cs => cs.countP Option.isNone
  | booleans cs => cs.countP Option.isNone
  | strings cs => cs.countP Option.isNone
  | nulls n => n
  | categories _ cs => cs.countP Option.isNone
  | foreign _ _ => 0

/-- A cell as a scalar, given the scalar of what it holds. -/
def scalarOf {α : Type} (f : α → Scalar) : Option α → Scalar
  | none => .null
  | some a => f a

/-- The scalar in a cell, if there is such a cell and its type is one that tables accept. -/
def scalar? (i : Nat) : Cells → Option Scalar
  | ints w cs => cs[i]?.map (scalarOf (.integer w))
  | floats32 cs => cs[i]?.map (scalarOf .float32)
  | floats64 cs => cs[i]?.map (scalarOf .float64)
  | booleans cs => cs[i]?.map (scalarOf .boolean)
  | strings cs => cs[i]?.map (scalarOf .string)
  | nulls n => if i < n then some .null else none
  | categories _ cs => cs[i]?.map (scalarOf .string)
  | foreign _ _ => none

end Cells

/-- A named list of cells of one storage type. -/
structure Series where
  name : String
  cells : Cells

namespace Series

def dtype (s : Series) : DType := s.cells.dtype

def length (s : Series) : Nat := s.cells.length

def nullCount (s : Series) : Nat := s.cells.nullCount

/-- The same cells under another name. -/
def rename (s : Series) (name : String) : Series := ⟨name, s.cells⟩

end Series

end Tabula
