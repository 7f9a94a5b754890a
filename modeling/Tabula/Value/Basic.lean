import Tabula.Number.Binary64

/-!
# Cell values

A table cell holds nothing, a truth value, an integer of 64 bits, a floating-point number or a text.
Values carry a total order, and the equality `==` is equality in that order: both zeros are equal,
and so are all not-a-numbers. Plain equality `=` says that two values are identical.

* `ColumnType` — the four types of cells, and which values each of them accepts.
* `Value.cmp` — the order: by type first (`Value.typeRank`), then within the type.
* `Value.hashFeed` — what a value feeds to a hasher; equal values feed the same.
* `insertByKey` — puts an element into an ascending list, in place of one with an equal key.
* `Value.ascending` — the distinct values of a list in ascending order.
-/

namespace Tabula

/-- The declared type of a column. -/
inductive ColumnType where
  | integer
  | float
  | string
  | boolean
  deriving DecidableEq, Repr, Inhabited

/-- The name of the type in messages. -/
def ColumnType.label : ColumnType → String
  | .integer => "integer"
  | .float => "float"
  | .string => "string"
  | .boolean => "boolean"

/-- The name of the type in JSON text. -/
def ColumnType.tag : ColumnType → String
  | .integer => "Integer"
  | .float => "Float"
  | .string => "String"
  | .boolean => "Boolean"

/-- The type with the given name in JSON text. -/
def ColumnType.ofTag? (s : String) : Option ColumnType :=
  [.integer, .float, .string, .boolean].find? fun t => t.tag = s

/-- What a table cell holds. -/
inductive Value where
  | null
  | boolean (b : Bool)
  | integer (i : Int64)
  | float (x : Binary64)
  | string (s : String)
  deriving DecidableEq, Repr, Inhabited

namespace Value

/-- The type of columns that the value belongs to; an empty cell belongs to none in particular. -/
def columnType? : Value → Option ColumnType
  | .null => none
  | .boolean _ => some .boolean
  | .integer _ => some .integer
  | .float _ => some .float
  | .string _ => some .string

/-- The name of the value's type in messages. -/
def typeName (v : Value) : String :=
  match v.columnType? with
  | none => "null"
  | some t => t.label

def isNull : Value → Bool
  | .null => true
  | _ => false

def bool? : Value → Option Bool
  | .boolean b => some b
  | _ => none

def int64? : Value → Option Int64
  | .integer i => some i
  | _ => none

/-- The value as a number; integers are rounded to the nearest floating-point number. -/
def binary64? : Value → Option Binary64
  | .integer i => some (.ofInt i.toInt)
  | .float x => some x
  | _ => none

def string? : Value → Option String
  | .string s => some s
  | _ => none

/-- The place of the value's type in the order of values. -/
def typeRank : Value → Nat
  | .null => 0
  | .boolean _ => 1
  | .integer _ => 2
  | .float _ => 3
  | .string _ => 4

/-- The total order of values. -/
def cmp : Value → Value → Ordering
  | .boolean a, .boolean b => compare a b
  | .integer a, .integer b => compare a b
  | .float a, .float b => compare a.rank b.rank
  | .string a, .string b => compare a b
  | a, b => compare a.typeRank b.typeRank

instance : Ord Value := ⟨cmp⟩

/-- Two values are equal if neither is before the other. -/
instance : BEq Value := ⟨fun a b => a.cmp b == .eq⟩

/-- The values in ascending order; equal values keep their order. -/
def sort (vs : List Value) : List Value := vs.mergeSort fun a b => a.cmp b != .gt

end Value

/-- Whether a value may stand in a column of the type: an empty cell always may. -/
def ColumnType.accepts (t : ColumnType) (v : Value) : Bool :=
  match v.columnType? with
  | none => true
  | some u => u = t

/-- One piece of data that a hasher is fed. -/
inductive HashInput where
  | octet (n : UInt8)
  | word (n : UInt64)
  | count (n : Nat)
  | octets (bytes : List UInt8)
  deriving DecidableEq

namespace Value

/-- What the value feeds to a hasher: the rank of its type, then its content in canonical form. -/
def hashFeed (v : Value) : List HashInput :=
  .octet (UInt8.ofNat v.typeRank) ::
    match v with
    | .null => []
    | .boolean b => [.octet (if b then 1 else 0)]
    | .integer i => [.word i.toUInt64]
    | .float x => [.word x.canonical.bits]
    | .string s => [.octets s.toUTF8.data.toList, .octet 0xff]

/-- What a list of values feeds to a hasher: its length, then each value in turn. -/
def hashFeedList (vs : List Value) : List HashInput :=
  .count vs.length :: vs.flatMap hashFeed

end Value

/-! ### Ascending lists -/

/-- An ascending list with an element put in at the place of its key; an element with an equal key
gives way. -/
def insertByKey {α κ : Type} (cmp : κ → κ → Ordering) (key : α → κ) (a : α) : List α → List α
  | [] => [a]
  | b :: bs =>
    match cmp (key a) (key b) with
    | .lt => a :: b :: bs
    | .eq => a :: bs
    | .gt => b :: insertByKey cmp key a bs

namespace Value

/-- An ascending list with a value put in; a value equal to it gives way. -/
def insertDistinct (v : Value) : List Value → List Value := insertByKey cmp id v

/-- The distinct values of the list in ascending order, of equal ones the last. -/
def ascending (vs : List Value) : List Value :=
  vs.foldl (fun acc v => insertDistinct v acc) []

end Value

end Tabula
