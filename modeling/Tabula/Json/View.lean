import Tabula.Json.Syntax

/-!
# Views of JSON values

What a JSON value is taken for where a value of a certain kind is expected.

* `Json.natBelow?`, `Json.bool?`, `Json.label?` — a number, a truth value, a name.
* `Json.member?` — the value under a key that must not be repeated.
* `Json.parseLabel?` — the name that a JSON text gives.
-/

namespace Tabula.Json

/-- The natural number below a bound that a JSON value is. -/
def natBelow? (bound : Nat) : Json → Option Nat
  | .number n => n.integer?.bind fun i =>
    if n.negative = false ∧ i < bound then some i.toNat else none
  | _ => none

def bool? : Json → Option Bool
  | .bool b => some b
  | _ => none

/-- The name that a JSON value gives: a string, or an object whose only member is null. -/
def label? : Json → Option String
  | .string s => s
  | .object [(key, .null)] => key
  | _ => none

/-- The value of the member with the given key. The outer option is empty if the key is repeated. -/
def member? (key : String) (members : List (Option String × Json)) : Option (Option Json) :=
  match members.filter fun m => m.1 = some key with
  | [] => some none
  | [m] => some (some m.2)
  | _ => none

/-- The name that a JSON text gives. -/
def parseLabel? (text : String) : Option String := (parse? text).bind label?

end Tabula.Json
