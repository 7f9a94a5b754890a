import Tabula.Column

/-!
# Category mappings

A mapping gives each category of a column its position in a list of categories as a code. It holds
the codes a second time by category, so that both directions are lookups.

* `Mapping.ofCategories` — the mapping of a list of categories.
* `Mapping.sorted`, `Mapping.ordered` — the mapping learned from a column: its distinct values in
  ascending order, or a given order that covers them.
* `Mapping.codeOf`, `Mapping.categoryOf` — the two directions.
* `Mapping.encode`, `Mapping.decode` — the directions on whole columns, cell by cell.
-/

namespace Tabula

/-- The categories of a column; the position of each is its code. -/
structure Mapping where
  /-- The type of the column that the categories come from. -/
  type : ColumnType
  categories : List Value
  /-- The code of each category. Equal values have one code together. -/
  codes : List (Value × Int64)
  deriving DecidableEq

namespace Mapping

/-- The codes with one for a value, in place of the code of an equal value. -/
def putCode (v : Value) (code : Int64) : List (Value × Int64) → List (Value × Int64)
  | [] => [(v, code)]
  | (w, c) :: rest => if w == v then (w, code) :: rest else (w, c) :: putCode v code rest

/-- The codes of categories, which are put in one after the other. -/
def codesOf (categories : List Value) : List (Value × Int64) :=
  categories.zipIdx.foldl (fun codes (v, i) => putCode v (Int64.ofNat i) codes) []

/-- The mapping of the categories of a column of the type. -/
def ofCategories (type : ColumnType) (categories : List Value) : Mapping :=
  ⟨type, categories, codesOf categories⟩

/-! ### Learning -/

/-- The distinct values of a column in ascending order; at least one has to be there. -/
def observed (c : Column) : Except Error (List Value) := do
  match Value.ascending ((← c.values).filter fun v => !v.isNull) with
  | [] => throw (.learning c.name .noValues)
  | vs => return vs

/-- The mapping whose categories are the distinct values of the column in ascending order. -/
def sorted (c : Column) : Except Error Mapping := do
  return ofCategories c.type (← observed c)

/-- The first defect of an order of categories for columns of a type, after the values `seen`. -/
def orderFault? (type : ColumnType) (seen : List Value) : List Value → Option LearningFault
  | [] => none
  | v :: vs =>
    if v.isNull then some .nullInOrder
    else if !type.accepts v then some (.wrongType v type)
    else if seen.contains v then some (.repeated v)
    else orderFault? type (v :: seen) vs

/-- The mapping with the given order, which has to be free of defects and to cover the values of the
column. A column without values is refused first, and an order's own defects before a value that it
does not cover. -/
def ordered (c : Column) (order : List Value) : Except Error Mapping := do
  let values ← observed c
  match orderFault? c.type [] order with
  | some fault => throw (.learning c.name fault)
  | none =>
    match values.find? fun v => !order.contains v with
    | some v => throw (.learning c.name (.uncovered v))
    | none => return ofCategories c.type order

/-! ### Codes and categories -/

variable (m : Mapping)

def length : Nat := m.categories.length

def isEmpty : Bool := m.categories.isEmpty

/-- The code of a value, if it is a category. -/
def codeOf (v : Value) : Option Int64 := m.codes.lookup v

/-- The category with a code. -/
def categoryOf (code : Int64) : Option Value :=
  if 0 ≤ code.toInt then m.categories[code.toInt.toNat]? else none

/-- The code that a value stands for: an integer, or a floating-point number without a fraction,
brought into the range of integers. -/
def codeIn : Value → Option Int64
  | .integer i => some i
  | .float x => x.integer?.map Integer64.clamp
  | _ => none

/-- The code of the value in a cell of the named column; an empty cell stays empty. -/
def encodeCell (column : String) (v : Value) : Except Error Value :=
  if v.isNull then .ok .null
  else match m.codeOf v with
    | some code => .ok (.integer code)
    | none => .error (.unknownCategory column v.display)

/-- The category of the code in a cell of the named column; an empty cell stays empty. -/
def decodeCell (column : String) (v : Value) : Except Error Value :=
  if v.isNull then .ok .null
  else match (codeIn v).bind m.categoryOf with
    | some category => .ok category
    | none => .error (.unknownCategory column v.display)

/-- The column of the codes. -/
def encode (c : Column) : Except Error Column := do
  Column.ofValues c.name .integer (← (← c.values).mapM (m.encodeCell c.name))

/-- The column of the categories, of the type that they were learned with. -/
def decode (c : Column) : Except Error Column := do
  Column.ofValues c.name m.type (← (← c.values).mapM (m.decodeCell c.name))

/-- Whether two mappings have the same type, equal categories in the same order and, whatever their
order, the same codes for equal values. -/
def equal (m n : Mapping) : Bool :=
  m.type == n.type && m.categories == n.categories && m.codes.length == n.codes.length &&
    m.codes.all fun (v, code) => n.codeOf v == some code

instance : BEq Mapping := ⟨equal⟩

end Mapping

end Tabula
