import Tabula.Encoding.Store
import Tabula.Table.Basic

/-!
# Encoders

An encoder learns mappings for columns, one per name, and replaces columns by their codes and back.

* `Rule` — how a mapping is learned: by ascending values, or by supplied orders.
* `Encoder.Call` — a call that may change an encoder.
* `Encoder.fit` — learns and stores the mapping of a column.
* `Encoder.transform`, `Encoder.inverse` — encode and decode a column by its stored mapping.
* `Encoder.fitTransform` — learns and encodes several columns in turn; nothing is stored unless all
  of them succeed.
-/

namespace Tabula

/-- Which of several columns that are encoded together the order of an encoder applies to. -/
inductive OrderPolicy where
  | supplied
  | firstColumnOnly
  deriving DecidableEq, Repr, Inhabited

/-- The name of the policy. -/
def OrderPolicy.label : OrderPolicy → String
  | .supplied => "Supplied"
  | .firstColumnOnly => "FirstColumnOnly"

/-- The policy with the given name. -/
def OrderPolicy.ofLabel? (s : String) : Option OrderPolicy :=
  if s = "Supplied" then some .supplied
  else if s = "FirstColumnOnly" then some .firstColumnOnly
  else none

/-- Supplied orders of categories. -/
structure Orders where
  /-- The order for columns without an order of their own. -/
  shared : Option (List Value) := none
  /-- The orders of single columns, the latest first. -/
  byColumn : List (String × List Value) := []
  policy : OrderPolicy := .supplied
  deriving DecidableEq, Inhabited

namespace Orders

/-- The orders with one for a single column, in place of an earlier one. -/
def withColumn (o : Orders) (name : String) (order : List Value) : Orders :=
  { o with byColumn := (name, order) :: o.byColumn }

/-- The order for a column at a position among the columns that are encoded together. -/
def order? (o : Orders) (name : String) (position : Nat) : Option (List Value) :=
  match o.byColumn.lookup name with
  | some order => some order
  | none => if o.policy = .firstColumnOnly ∧ 0 < position then none else o.shared

end Orders

/-- How an encoder learns mappings. -/
inductive Rule where
  /-- Codes follow the ascending values. -/
  | label
  /-- Codes follow supplied orders, and ascending values where there is none. -/
  | ordinal (orders : Orders)
  deriving DecidableEq, Inhabited

namespace Rule

/-- The name of encoders of the rule. -/
def encoderName : Rule → String
  | label => "LabelEncoder"
  | ordinal _ => "OrdinalEncoder"

/-- The mapping learned from a column at a position among the columns that are encoded together. -/
def learn (r : Rule) (c : Column) (position : Nat) : Except Error Mapping :=
  match r with
  | label => Mapping.sorted c
  | ordinal orders =>
    match orders.order? c.name position with
    | some order => Mapping.ordered c order
    | none => Mapping.sorted c

/-- The mapping learned from a column, and the column of its codes. -/
def learnCodes (r : Rule) (c : Column) (position : Nat) : Except Error (Mapping × Column) := do
  let m ← r.learn c position
  return (m, ← m.encode c)

/-- The table with the columns encoded one after the other, and the mappings learned on the way. The
number is the position of the first column. -/
def encodeColumns (r : Rule) : Nat → Table → List String →
    Except Error (Table × List (String × Mapping))
  | _, t, [] => .ok (t, [])
  | position, t, name :: names => do
    let (m, codes) ← (r.learnCodes (← t.column name) position).mapError (.fitFailed name)
    let (u, learned) ← encodeColumns r (position + 1) (← t.replace codes) names
    return (u, (name, m) :: learned)

end Rule

/-- A rule with the mappings learned so far. -/
structure Encoder where
  rule : Rule
  mappings : MappingStore

namespace Encoder

/-- The encoder that has learned nothing. -/
def ofRule (r : Rule) : Encoder := ⟨r, .empty⟩

instance : Inhabited Encoder := ⟨ofRule .label⟩

/-- A call that may change an encoder; what it changed before a failure stays. -/
abbrev Call (α : Type) := ExceptT Error (StateM Encoder) α

/-- A result that does not depend on the encoder. -/
def Call.ofResult {α : Type} (r : Except Error α) : Call α := ExceptT.mk (pure r)

/-! ### Learning -/

/-- Learns the mapping of the column with the name and stores it over an earlier one. -/
def fit (t : Table) (name : String) : Call Unit := do
  let c ← Call.ofResult (t.column name)
  let m ← Call.ofResult ((← get).rule.learn c 0)
  modify fun e => { e with mappings := e.mappings.insert name m }

/-- Learns and encodes the columns one after the other. All of them have to exist, and their
mappings are stored together at the end. -/
def fitTransform (t : Table) (names : List String) : Call Table := do
  Call.ofResult (t.schema.require names)
  let (u, learned) ← Call.ofResult ((← get).rule.encodeColumns 0 t names)
  modify fun e => { e with mappings := e.mappings.insertAll learned }
  return u

/-! ### Reading and applying mappings -/

variable (e : Encoder)

def isFitted : Bool := !e.mappings.isEmpty

def isFittedFor (name : String) : Bool := e.mappings.contains name

/-- The table with a column replaced by its codes. A missing column is reported before a missing
mapping. -/
def transform (t : Table) (name : String) : Except Error Table := do
  let c ← t.column name
  t.replace (← (← e.mappings.get name).encode c)

/-- The table with a column of codes replaced by their categories. -/
def inverse (t : Table) (name : String) : Except Error Table := do
  let c ← t.column name
  t.replace (← (← e.mappings.get name).decode c)

end Encoder

end Tabula
