import Tabula.Json.Syntax
import Tabula.Number.Binary64

/-!
# Shapes of JSON values

The shape of a value is what a column of such values has to be able to hold. Shapes of several
values are unified; a value that is null fits every shape.

* `Json.Number.numeral?` — the number that a literal denotes, if it is in range.
* `Shape.unify?` — the shape for the values of two shapes, if there is one.
* `Shape.ofJson?` — the shape of a value.
* `mergeFields` — the fields of two records together.
-/

namespace Tabula

/-- A number as a column of numbers can hold it. -/
inductive Numeral where
  | int (i : Int)
  | float (x : Binary64)
  deriving DecidableEq, Repr

/-- The number that a literal denotes. Integers have to fit 64 bits, with a sign if they are
negative, and other numbers must not be beyond the largest finite one. -/
def Json.Number.numeral? (n : Json.Number) : Option Numeral :=
  match n.integer? with
  | some i => if Int64.minValue.toInt ≤ i ∧ i < UInt64.size then some (.int i) else none
  | none =>
    if n.nearest < Grid.double.infinity then some (.float (.ofParts n.negative n.nearest)) else none

/-- What a column of JSON values has to be able to hold. -/
inductive Shape where
  | null
  | bool
  | int
  | float
  | text
  | list (item : Shape)
  | record (fields : List (String × Shape))
  deriving BEq, Repr, Inhabited

/-- The fields of two records together, those of the longer record first and in its order; of
records of one length the first goes first. Fields of one name are unified. -/
def mergeFields (unify? : Shape → Shape → Option Shape) (fs gs : List (String × Shape)) :
    Option (List (String × Shape)) :=
  let (long, short) := if fs.length < gs.length then (gs, fs) else (fs, gs)
  short.foldlM (fun acc (name, shape) =>
    match acc.lookup name with
    | none => some (acc ++ [(name, shape)])
    | some other => (unify? other shape).map fun both =>
      acc.map fun f => if f.1 = name then (name, both) else f) long

namespace Shape

/-- The name of the shape as the type of a column. -/
def label : Shape → String
  | null => "null"
  | bool => "bool"
  | int => "i64"
  | float => "f64"
  | text => "str"
  | list item => "list[" ++ item.label ++ "]"
  | record fields => "struct[" ++ toString fields.length ++ "]"

/-- The shape for the values of two shapes. Truth values join integers, integers join floating-point
numbers, all of them join texts, and a value joins a list as if it were the list of itself. The
first argument bounds the depth of the shapes. -/
def unify? : Nat → Shape → Shape → Option Shape
  | 0, _, _ => none
  | fuel + 1, a, b =>
    match a, b with
    | null, s => some s
    | s, null => some s
    | list a, list b => (unify? fuel a b).map list
    | list a, b => (unify? fuel a b).map list
    | a, list b => (unify? fuel a b).map list
    | record fs, record gs => (mergeFields (unify? fuel) fs gs).map record
    | record _, _ => none
    | _, record _ => none
    | text, _ => some text
    | _, text => some text
    | float, _ => some float
    | _, float => some float
    | int, _ => some int
    | _, int => some int
    | bool, bool => some bool

/-- The shapes under the given name, without repetitions. -/
def shapesOf (name : String) (fields : List (String × Shape)) : List Shape :=
  (fields.filterMap fun f => if f.1 = name then some f.2 else none).eraseDups

/-- The shape for the items of one array, given the different shapes among them. Items that neither
are numbers nor fit each other are held as texts. The first argument bounds the depth of
the shapes. -/
def ofItemShapes : Nat → List Shape → Shape
  | 0, _ => text
  | _, [] => null
  | _, [s] => s
  | fuel + 1, shapes =>
    if shapes.all fun s => match s with | record _ => true | _ => false then
      let fields := shapes.flatMap fun s => match s with | record fs => fs | _ => []
      record ((fields.map Prod.fst).eraseDups.map fun name =>
        (name, ofItemShapes fuel (shapesOf name fields)))
    else
      match shapes with
      | [list a, list b] => list (ofItemShapes fuel [a, b].eraseDups)
      | [list a, b] => list (ofItemShapes fuel [a, b].eraseDups)
      | [a, list b] => list (ofItemShapes fuel [a, b].eraseDups)
      | [null, s] => s
      | [s, null] => s
      | [float, int] => float
      | [int, float] => float
      | [int, bool] => int
      | [bool, int] => int
      | _ => text

mutual

/-- The shape of a value; none if a number in it is out of range, a string in it has no text, or a
key of an object is repeated. The first argument bounds the depth of the value. -/
def ofJson? (fuel : Nat) : Json → Option Shape
  | .null => some null
  | .bool _ => some bool
  | .number n => n.numeral?.map fun
    | .int _ => int
    | .float _ => float
  | .string s => s.map fun _ => text
  | .array items => (ofItems? fuel items).map fun shapes =>
    list (ofItemShapes fuel shapes.eraseDups)
  | .object members => (ofMembers? fuel members).bind fun fields =>
    if (fields.map Prod.fst).Nodup then some (record fields) else none

/-- The shapes of the items of an array. -/
def ofItems? (fuel : Nat) : List Json → Option (List Shape)
  | [] => some []
  | item :: items => do return (← ofJson? fuel item) :: (← ofItems? fuel items)

/-- The keys of an object with the shapes of their values. -/
def ofMembers? (fuel : Nat) : List (Option String × Json) → Option (List (String × Shape))
  | [] => some []
  | (key, item) :: members => do
    return (← key, ← ofJson? fuel item) :: (← ofMembers? fuel members)

end

end Shape

end Tabula
