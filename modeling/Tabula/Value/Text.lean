import Tabula.Json.Syntax
import Tabula.Number.Integer64
import Tabula.Number.Layout
import Tabula.Value.Basic

/-!
# The texts of a value

* `Value.display` — the text in messages.
* `Value.json` — the JSON text; a number that is not finite has none and is written as null.
* `Value.ofJson?` — the value of a JSON value. Its type is told from its form alone: an integer
  literal of 64 bits is an integer, every other number a floating-point number.
-/

namespace Tabula.Value

/-- The text of the value in messages. -/
def display : Value → String
  | .null => "null"
  | .boolean b => if b then "true" else "false"
  | .integer i => toString i.toInt
  | .float x => Layout.plain.render x
  | .string s => s

/-- The JSON text of the value. -/
def json : Value → String
  | .null => "null"
  | .boolean b => if b then "true" else "false"
  | .integer i => toString i.toInt
  | .float x => if x.isFinite then Layout.signed.render x else "null"
  | .string s => String.ofList (Json.quote s)

/-- The floating-point number of a literal, if it is not out of range. -/
def floatOfNumber? (n : Json.Number) : Option Value :=
  n.stepwise?.map fun m => .float (.ofParts n.negative m)

/-- The integer of 64 bits that a literal asks for. A minus sign before zero asks for the negative
zero, which no integer is. -/
def integerOfNumber? (n : Json.Number) : Option Int64 :=
  n.integer?.bind fun i => if n.negative && i == 0 then none else Integer64.ofInt? i

/-- The value of a number literal. -/
def ofNumber? (n : Json.Number) : Option Value :=
  match integerOfNumber? n with
  | some i => some (.integer i)
  | none => floatOfNumber? n

/-- The value of a JSON value; arrays and objects are none. -/
def ofJson? : Json → Option Value
  | .null => some .null
  | .bool b => some (.boolean b)
  | .number n => ofNumber? n
  | .string s => s.map .string
  | .array _ => none
  | .object _ => none

/-- The value that a JSON text denotes. -/
def parse? (text : String) : Option Value := (Json.parse? text).bind ofJson?

end Tabula.Value
