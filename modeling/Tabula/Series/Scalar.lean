import Tabula.Number.Calendar
import Tabula.Number.Integer64
import Tabula.Value.Text

/-!
# Scalars

What a single cell of a series may hold before it becomes a table value: integers of any width,
floating-point numbers of two widths, texts, days.

* `IntWidth` — the widths of integers that a table accepts, with their machine words.
* `Scalar.toValue` — the table value of a scalar; what has no counterpart becomes its text.
-/

namespace Tabula

/-- The widths and signs of integers. -/
inductive IntWidth where
  | i8
  | i16
  | i32
  | i64
  | u8
  | u16
  | u32
  | u64
  deriving DecidableEq, Repr

namespace IntWidth

/-- The machine words of the width. -/
abbrev Word : IntWidth → Type
  | i8 => Int8
  | i16 => Int16
  | i32 => Int32
  | i64 => Int64
  | u8 => UInt8
  | u16 => UInt16
  | u32 => UInt32
  | u64 => UInt64

/-- The integer that a word stands for. -/
def toInt : (w : IntWidth) → w.Word → Int
  | i8, n => Int8.toInt n
  | i16, n => Int16.toInt n
  | i32, n => Int32.toInt n
  | i64, n => Int64.toInt n
  | u8, n => UInt8.toNat n
  | u16, n => UInt16.toNat n
  | u32, n => UInt32.toNat n
  | u64, n => UInt64.toNat n

/-- The word for an integer in the range of the width; other integers wrap around. -/
def ofInt : (w : IntWidth) → Int → w.Word
  | i8, n => Int8.ofInt n
  | i16, n => Int16.ofInt n
  | i32, n => Int32.ofInt n
  | i64, n => Int64.ofInt n
  | u8, n => UInt8.ofInt n
  | u16, n => UInt16.ofInt n
  | u32, n => UInt32.ofInt n
  | u64, n => UInt64.ofInt n

/-- The name of the type. -/
def label : IntWidth → String
  | i8 => "i8"
  | i16 => "i16"
  | i32 => "i32"
  | i64 => "i64"
  | u8 => "u8"
  | u16 => "u16"
  | u32 => "u32"
  | u64 => "u64"

/-- The word of 64 bits with a sign that stands for the same integer, if there is one. -/
def toInt64? (w : IntWidth) (n : w.Word) : Option Int64 :=
  Integer64.ofInt? (w.toInt n)

end IntWidth

/-- What a single cell of a series holds. -/
inductive Scalar where
  | null
  | boolean (b : Bool)
  | integer (w : IntWidth) (n : w.Word)
  | int128 (n : Int)
  | float32 (x : Binary32)
  | float64 (x : Binary64)
  | string (s : String)
  /-- A day, counted from the first of January 1970. -/
  | date (days : Int)

/-- The table value of a scalar. An integer beyond 64 bits with a sign becomes the nearest
floating-point number; a scalar of another type becomes its text. -/
def Scalar.toValue : Scalar → Value
  | .null => .null
  | .boolean b => .boolean b
  | .integer w n =>
    match w.toInt64? n with
    | some i => .integer i
    | none => .float (.ofInt (w.toInt n))
  | .int128 n => .string (toString n)
  | .float32 x => .float x.widen
  | .float64 x => .float x
  | .string s => .string s
  | .date days => .string (Calendar.render days)

end Tabula
